import PrefixCache.Reply.Basic
/-!
# Replies as bytes

A reply is written as its status in two bytes, an encoding in one, the
length of the payload in four, and the payload. The payload of a bare
status is one zero byte. A row of pairs is written as its length in four
bytes and then, for each pair, the key and the value with their lengths
before them; the value has its encoding in front of that.
`length_write` says that the announced length is the true one.
-/

namespace PrefixCache

/-- The bytes of a value. -/
def Value.write : Value → Bytes
  | .plain data => data
  | .compressed packed => packed
  | .number n => Bytes.ofInt64 n

/-- A value takes as many bytes as it counts for. -/
theorem Value.length_write (v : Value) : v.write.length = v.size := by
  cases v <;> simp [write, size, Bytes.ofInt64, Bytes.length_word]

namespace Reply

/-- The length of what stands before the payload. -/
def headerLength : Nat := 7

/-- A value with its encoding and its length before it. -/
def writeValue (v : Value) : Bytes :=
  UInt8.ofNat v.encoding.tag :: (Bytes.word 4 v.size ++ v.write)

/-- A pair of a row. -/
def writePair : Bytes × Value → Bytes
  | (key, v) => Bytes.word 4 key.length ++ key ++ writeValue v

/-- How many bytes a pair takes. -/
def pairLength : Bytes × Value → Nat
  | (key, v) => 4 + key.length + 1 + 4 + v.size

/-- How many bytes the pairs of a row take. -/
def rowLength : List (Bytes × Value) → Nat
  | [] => 0
  | p :: ps => pairLength p + rowLength ps

/-- How many bytes the payload takes. -/
def payloadLength : Reply → Nat
  | code _ => 1
  | value v => v.size
  | pairs ps => 4 + rowLength ps

/-- How many bytes the reply takes. -/
def encodedLength (r : Reply) : Nat := headerLength + r.payloadLength

/-- The reply as bytes. -/
def write (r : Reply) : Bytes :=
  Bytes.word 2 r.status.code ++
    match r with
    | code _ => 0 :: (Bytes.word 4 1 ++ [0])
    | value v => writeValue v
    | pairs ps =>
      0 :: (Bytes.word 4 r.payloadLength ++ Bytes.word 4 ps.length ++ ps.flatMap writePair)

theorem length_writePair (p : Bytes × Value) : (writePair p).length = pairLength p := by
  simp [writePair, pairLength, writeValue, Bytes.length_word, Value.length_write]
  omega

theorem length_flatMap_writePair (ps : List (Bytes × Value)) :
    (ps.flatMap writePair).length = rowLength ps := by
  induction ps with
  | nil => rfl
  | cons p ps ih =>
    rw [List.flatMap_cons, List.length_append, length_writePair, ih, rowLength]

/-- **The announced length is the true one.** -/
theorem length_write (r : Reply) : r.write.length = r.encodedLength := by
  cases r with
  | code s => simp [write, encodedLength, payloadLength, headerLength, Bytes.length_word]
  | value v =>
    simp [write, encodedLength, payloadLength, headerLength, writeValue, Bytes.length_word,
      Value.length_write]
    omega
  | pairs ps =>
    simp only [write, encodedLength, payloadLength, headerLength, List.length_append,
      List.length_cons, Bytes.length_word, length_flatMap_writePair]
    omega

end Reply

end PrefixCache

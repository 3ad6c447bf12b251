import PrefixCache.Lz4.Block
/-!
# Reading LZ4 blocks

Reading a block checks everything the block claims before it acts on it:
that the bytes it announces are there, that what comes out stays within
the announced size, and that a repetition starts inside what has come
out.
-/

namespace PrefixCache

namespace Lz4

/-- Why a block cannot be read. -/
inductive Damage where
  /-- The block breaks off. -/
  | cutShort
  /-- A step announces more literal bytes than follow. -/
  | literalsMissing
  /-- More would come out than was announced. -/
  | overrun (announced reached : Nat)
  /-- A repetition of what comes next. -/
  | zeroOffset
  /-- A repetition from before the start. -/
  | offsetTooFar
  deriving Repr, DecidableEq

/-- The wording of a damage. -/
def Damage.message : Damage → String
  | cutShort => "expected another byte, found none"
  | literalsMissing => "literal is out of bounds of the input"
  | overrun announced reached =>
    s!"provided output is too small for the decompressed data, actual {announced}, expected {reached}"
  | zeroOffset => "0 is not a valid match offset"
  | offsetTooFar => "the offset to copy is not contained in the decompressed buffer"

/-- Reads the bytes that carry on a length. -/
def readOverflow (n : Nat) : Bytes → Except Damage (Nat × Bytes)
  | [] => .error .cutShort
  | b :: rest => if b = 255 then readOverflow (n + 255) rest else .ok (n + b.toNat, rest)

/-- Reads a length whose four-bit field is `field`. -/
def readLength (field : Nat) (bs : Bytes) : Except Damage (Nat × Bytes) :=
  if field < 15 then .ok (field, bs) else readOverflow field bs

/-- Copies the literal bytes of a step. -/
def readLiterals (announced count : Nat) (out : Array UInt8) (bs : Bytes) :
    Except Damage (Array UInt8 × Bytes) :=
  if count = 0 then .ok (out, bs)
  else
    match Bytes.cut? count bs with
    | none => .error .literalsMissing
    | some (literals, rest) =>
      if announced < out.size + count then .error (.overrun announced (out.size + count))
      else .ok (out.appendList literals, rest)

/-- Reads the repetition of a step and carries it out. -/
def readRepeat (announced field : Nat) (out : Array UInt8) (bs : Bytes) :
    Except Damage (Array UInt8 × Bytes) :=
  match Bytes.cut? 2 bs with
  | none => .error .cutShort
  | some (word, rest) =>
    let offset := Bytes.value word
    if offset = 0 then .error .zeroOffset
    else
      match readLength field rest with
      | .error e => .error e
      | .ok (n, rest) =>
        let length := n + shortestMatch
        if announced < out.size + length then .error (.overrun announced (out.size + length))
        else if out.size < offset then .error .offsetTooFar
        else .ok (repeatBack offset length out, rest)

/-- Reads steps up to the end of the block. A block ends after literal
bytes. -/
def readSteps (announced : Nat) : (fuel : Nat) → Array UInt8 → Bytes → Except Damage (Array UInt8)
  | 0, _, _ => .error .cutShort
  | _ + 1, _, [] => .error .cutShort
  | fuel + 1, out, token :: rest =>
    match readLength (token.toNat / 16) rest with
    | .error e => .error e
    | .ok (count, rest) =>
      match readLiterals announced count out rest with
      | .error e => .error e
      | .ok (out, []) => .ok out
      | .ok (out, rest) =>
        match readRepeat announced (token.toNat % 16) out rest with
        | .error e => .error e
        | .ok (out, rest) => readSteps announced fuel out rest

/-- The bytes that come out of a block of which at most `announced` bytes
may come out. Every step takes at least one byte, so the length of the
block bounds the number of steps. -/
def readBlock (announced : Nat) (bs : Bytes) : Except Damage Bytes :=
  (readSteps announced (bs.length + 1) #[] bs).map Array.toList

end Lz4

end PrefixCache

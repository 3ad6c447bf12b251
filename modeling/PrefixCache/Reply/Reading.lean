import PrefixCache.Reply.Encoding
/-!
# Reading replies

A client cuts a reply off the front of a stream by the length in its
header, and reads the payload by its status and encoding. A stream of
replies is read one after the other, each of which takes bytes off the
stream (`length_lt_of_read?`).
-/

namespace PrefixCache

namespace Reply

/-- A reply as it stands in a stream: status, encoding tag, payload. -/
structure Raw where
  status : Nat
  tag : Nat
  payload : Bytes

/-- Cuts the first reply off a stream, once it has arrived whole. -/
def cutRaw? (stream : Bytes) : Option (Raw × Bytes) :=
  match Bytes.cut? 2 stream with
  | none => none
  | some (status, rest) =>
    match Bytes.cut? 1 rest with
    | none => none
    | some (tag, rest) =>
      match Bytes.cut? 4 rest with
      | none => none
      | some (length, rest) =>
        (Bytes.cut? (Bytes.value length) rest).map fun (payload, rest) =>
          ({ status := Bytes.value status, tag := Bytes.value tag, payload }, rest)

/-- Reads a value by its encoding. -/
def readValue? (tag : Nat) (bs : Bytes) : Option Value :=
  if tag = Encoding.plain.tag then some (.plain bs)
  else if tag = Encoding.compressed.tag then some (.compressed bs)
  else if tag = Encoding.number.tag ∧ bs.length = 8 then
    some (.number (UInt64.ofNat (Bytes.value bs)).toInt64)
  else none

/-- Cuts a byte string with its length before it. -/
def cutSized? (bs : Bytes) : Option (Bytes × Bytes) :=
  match Bytes.cut? 4 bs with
  | none => none
  | some (length, rest) => Bytes.cut? (Bytes.value length) rest

/-- Cuts a pair off a row. -/
def cutPair? (bs : Bytes) : Option ((Bytes × Value) × Bytes) :=
  match cutSized? bs with
  | none => none
  | some (key, rest) =>
    match Bytes.cut? 1 rest with
    | none => none
    | some (tag, rest) =>
      match cutSized? rest with
      | none => none
      | some (written, rest) =>
        (readValue? (Bytes.value tag) written).map fun v => ((key, v), rest)

/-- Reads so many pairs, after which nothing may be left. -/
def readPairs? : (count : Nat) → Bytes → Option (List (Bytes × Value))
  | 0, [] => some []
  | 0, _ :: _ => none
  | count + 1, bs =>
    match cutPair? bs with
    | none => none
    | some (p, rest) => (readPairs? count rest).map (p :: ·)

/-- The reply a raw reply stands for. -/
def ofRaw? (raw : Raw) : Option Reply :=
  match Status.ofCode? raw.status with
  | none => none
  | some .value => (readValue? raw.tag raw.payload).map .value
  | some .pairs =>
    if raw.tag = 0 then
      match Bytes.cut? 4 raw.payload with
      | none => none
      | some (count, rest) => (readPairs? (Bytes.value count) rest).map .pairs
    else none
  | some s => if raw.tag = 0 ∧ raw.payload = [0] then some (.code s) else none

/-- Reads the first reply of a stream. -/
def read? (stream : Bytes) : Option (Reply × Bytes) :=
  match cutRaw? stream with
  | none => none
  | some (raw, rest) => (ofRaw? raw).map fun r => (r, rest)

theorem length_lt_of_cutRaw? {stream rest : Bytes} {raw : Raw}
    (h : cutRaw? stream = some (raw, rest)) : rest.length < stream.length := by
  unfold cutRaw? at h
  split at h
  · cases h
  · next status afterStatus hstatus =>
    obtain ⟨rfl, hfirst⟩ := Bytes.cut?_eq_some.1 hstatus
    split at h
    · cases h
    · next tag afterTag htag =>
      obtain ⟨rfl, -⟩ := Bytes.cut?_eq_some.1 htag
      split at h
      · cases h
      · next length afterLength hlength =>
        obtain ⟨rfl, -⟩ := Bytes.cut?_eq_some.1 hlength
        obtain ⟨⟨payload, last⟩, hpayload, hraw⟩ := Option.map_eq_some_iff.1 h
        obtain ⟨rfl, -⟩ := Bytes.cut?_eq_some.1 hpayload
        obtain ⟨-, rfl⟩ := Prod.mk.inj hraw
        simp only [List.length_append]
        omega

/-- Reading a reply takes bytes off the stream. -/
theorem length_lt_of_read? {stream rest : Bytes} {r : Reply}
    (h : read? stream = some (r, rest)) : rest.length < stream.length := by
  unfold read? at h
  split at h
  · cases h
  · next raw afterRaw hraw =>
    obtain ⟨r', -, hr⟩ := Option.map_eq_some_iff.1 h
    obtain ⟨-, rfl⟩ := Prod.mk.inj hr
    exact length_lt_of_cutRaw? hraw

/-- Reads a stream that holds replies and nothing else. -/
def readAll? (stream : Bytes) : Option (List Reply) :=
  if stream = [] then some []
  else
    match _h : read? stream with
    | none => none
    | some (r, rest) => (readAll? rest).map (r :: ·)
termination_by stream.length
decreasing_by exact length_lt_of_read? ‹_›

end Reply

end PrefixCache

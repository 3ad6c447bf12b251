import PrefixCache.Reply.Reading
/-!
# Replies read back

Writing and reading a reply meet in the raw reply: the status, the encoding
tag and the payload (`Reply.raw`). What is written is a raw reply with the
length of its payload (`write_eq`), and it is cut off a stream whatever
follows (`cutRaw?_write`). Every reader gives back what its writer was
given, with whatever stands behind it, and so does the reader of a whole
reply (`read?_write`) and of a row of them (`readAll?_flatMap_write`). All
this is for lengths that fit into four bytes.
-/

namespace PrefixCache

namespace Bytes

/-- How many words of four bytes there are. -/
theorem wordCount_four : wordCount 4 = 0x100000000 := rfl

/-- A single byte is a word of its own. -/
theorem cut?_one (b : UInt8) (rest : Bytes) : cut? 1 (b :: rest) = some ([b], rest) := rfl

end Bytes

/-! ## Values -/

theorem Encoding.value_tag (e : Encoding) : Bytes.value [UInt8.ofNat e.tag] = e.tag := by
  cases e <;> rfl

namespace Reply

/-- **A value reads back by its encoding.** -/
theorem readValue?_write (v : Value) : readValue? v.encoding.tag v.write = some v := by
  cases v with
  | plain data => rfl
  | compressed packed => rfl
  | number n =>
    have hfits : n.toUInt64.toNat < Bytes.wordCount 8 := n.toUInt64.toNat_lt
    have hread : UInt64.ofNat (Bytes.value (Bytes.ofInt64 n)) = n.toUInt64 := by
      rw [Bytes.ofInt64, Bytes.value_word hfits, UInt64.ofNat_toNat]
    have hlength : (Bytes.ofInt64 n).length = 8 := Bytes.length_word 8 _
    simp [readValue?, Value.write, Value.encoding, Encoding.tag, hlength, hread]

/-- A string with its length before it is cut off. -/
theorem cutSized?_append {bs : Bytes} (h : bs.length < 0x100000000) (rest : Bytes) :
    cutSized? (Bytes.word 4 bs.length ++ bs ++ rest) = some (bs, rest) := by
  rw [← Bytes.wordCount_four] at h
  rw [cutSized?, List.append_assoc, Bytes.cut?_word]
  simp only [Bytes.value_word h, Bytes.cut?_append rfl]

/-! ## Pairs -/

/-- **A pair is cut off a row.** -/
theorem cutPair?_writePair {p : Bytes × Value} (h : pairLength p < 0x100000000) (rest : Bytes) :
    cutPair? (writePair p ++ rest) = some (p, rest) := by
  obtain ⟨key, v⟩ := p
  simp only [pairLength] at h
  have hkey : key.length < 0x100000000 := by omega
  have hvalue : v.write.length < 0x100000000 := by rw [v.length_write]; omega
  have hrow : writePair (key, v) ++ rest =
      Bytes.word 4 key.length ++ key ++
        (UInt8.ofNat v.encoding.tag :: (Bytes.word 4 v.write.length ++ v.write ++ rest)) := by
    simp [writePair, writeValue, v.length_write]
  rw [hrow, cutPair?, cutSized?_append hkey]
  simp only [Bytes.cut?_one, cutSized?_append hvalue, Encoding.value_tag, readValue?_write,
    Option.map_some]

/-- **A row of pairs reads back**, in order. -/
theorem readPairs?_flatMap_writePair {ps : List (Bytes × Value)}
    (h : rowLength ps < 0x100000000) : readPairs? ps.length (ps.flatMap writePair) = some ps := by
  induction ps with
  | nil => rfl
  | cons p ps ih =>
    simp only [rowLength] at h
    have hfirst : pairLength p < 0x100000000 := by omega
    have hrest : rowLength ps < 0x100000000 := by omega
    simp only [List.length_cons, List.flatMap_cons, readPairs?, cutPair?_writePair hfirst,
      ih hrest, Option.map_some]

/-- A row has no more pairs than bytes. -/
theorem length_le_rowLength (ps : List (Bytes × Value)) : ps.length ≤ rowLength ps := by
  induction ps with
  | nil => exact Nat.le_refl _
  | cons p ps ih =>
    simp only [List.length_cons, rowLength, pairLength]
    omega

/-! ## Raw replies -/

/-- What a reply says in its header and its payload. -/
def raw (r : Reply) : Raw :=
  match r with
  | code s => { status := s.code, tag := 0, payload := [0] }
  | value v => { status := Status.value.code, tag := v.encoding.tag, payload := v.write }
  | pairs ps =>
    { status := Status.pairs.code
      tag := 0
      payload := Bytes.word 4 ps.length ++ ps.flatMap writePair }

theorem length_payload (r : Reply) : r.raw.payload.length = r.payloadLength := by
  cases r with
  | code s => rfl
  | value v => exact v.length_write
  | pairs ps =>
    simp only [raw, List.length_append, Bytes.length_word, length_flatMap_writePair, payloadLength]

/-- **What is written** is the status, the encoding tag, the length of the
payload, and the payload. -/
theorem write_eq (r : Reply) :
    r.write = Bytes.word 2 r.raw.status ++
      (UInt8.ofNat r.raw.tag :: (Bytes.word 4 r.payloadLength ++ r.raw.payload)) := by
  cases r with
  | code s => rfl
  | value v => rfl
  | pairs ps =>
    simp only [write, raw, status, List.append_assoc]
    rfl

/-- A payload length that fits into four bytes. -/
theorem payloadLength_lt {r : Reply} (h : r.encodedLength < 0x100000000) :
    r.payloadLength < Bytes.wordCount 4 := by
  rw [Bytes.wordCount_four]
  rw [encodedLength] at h
  omega

/-- The length that a stream announces for its first reply, in the four bytes
after the status and the encoding. -/
def announced (stream : Bytes) : Nat := Bytes.value ((stream.drop 3).take 4)

/-- **What is announced** is what the reply is longer than its header. -/
theorem announced_write {r : Reply} (h : r.encodedLength < 0x100000000) :
    announced r.write = r.encodedLength - headerLength := by
  have hdrop : r.write.drop 3 = Bytes.word 4 r.payloadLength ++ r.raw.payload := by
    rw [write_eq]
    rfl
  rw [announced, hdrop, List.take_left' (Bytes.length_word 4 _),
    Bytes.value_word (payloadLength_lt h), encodedLength, Nat.add_sub_cancel_left]

/-- **A reply is cut off a stream**, whatever follows it. -/
theorem cutRaw?_write {r : Reply} (h : r.encodedLength < 0x100000000) (rest : Bytes) :
    cutRaw? (r.write ++ rest) = some (r.raw, rest) := by
  have hstatus : Bytes.value (Bytes.word 2 r.raw.status) = r.raw.status := by
    refine Bytes.value_word ?_
    cases r with
    | code s => cases s <;> exact of_decide_eq_true rfl
    | value v => exact of_decide_eq_true rfl
    | pairs ps => exact of_decide_eq_true rfl
  have htag : Bytes.value [UInt8.ofNat r.raw.tag] = r.raw.tag := by
    cases r with
    | code s => rfl
    | value v => exact v.encoding.value_tag
    | pairs ps => rfl
  rw [write_eq, List.append_assoc, cutRaw?, Bytes.cut?_word]
  simp only [List.cons_append, Bytes.cut?_one, List.append_assoc, Bytes.cut?_word,
    Bytes.value_word (payloadLength_lt h), Bytes.cut?_append (length_payload r), Option.map_some,
    hstatus, htag]

/-! ## Whole replies -/

/-- A bare status announces neither a value nor pairs, and no value is shown
in compressed form. -/
def Proper : Reply → Prop
  | code s => s ≠ .value ∧ s ≠ .pairs
  | value v => v.encoding ≠ .compressed
  | pairs ps => ∀ p ∈ ps, p.2.encoding ≠ .compressed

instance : (r : Reply) → Decidable r.Proper
  | code s => inferInstanceAs (Decidable (s ≠ .value ∧ s ≠ .pairs))
  | value v => inferInstanceAs (Decidable (v.encoding ≠ .compressed))
  | pairs ps => inferInstanceAs (Decidable (∀ p ∈ ps, p.2.encoding ≠ .compressed))

theorem ofRaw?_raw {r : Reply} (hproper : r.Proper) (h : r.encodedLength < 0x100000000) :
    ofRaw? r.raw = some r := by
  cases r with
  | code s =>
    obtain ⟨hvalue, hpairs⟩ := hproper
    cases s with
    | value => exact absurd rfl hvalue
    | pairs => exact absurd rfl hpairs
    | _ => rfl
  | value v => exact congrArg (Option.map Reply.value) (readValue?_write v)
  | pairs ps =>
    simp only [encodedLength, payloadLength] at h
    have hcount : ps.length < Bytes.wordCount 4 := by
      have := length_le_rowLength ps
      rw [Bytes.wordCount_four]
      omega
    have hrow : rowLength ps < 0x100000000 := by omega
    have hstatus : Status.ofCode? Status.pairs.code = some .pairs := rfl
    simp only [ofRaw?, raw, hstatus, if_true, Bytes.cut?_word, Bytes.value_word hcount,
      readPairs?_flatMap_writePair hrow, Option.map_some]

/-- **What is written reads back**, whatever follows it. -/
theorem read?_write {r : Reply} (hproper : r.Proper) (h : r.encodedLength < 0x100000000)
    (rest : Bytes) : read? (r.write ++ rest) = some (r, rest) := by
  simp only [read?, cutRaw?_write h, ofRaw?_raw hproper h, Option.map_some]

theorem readAll?_nil : readAll? [] = some [] := by
  rw [readAll?, if_pos rfl]

/-- Reading the replies of a stream begins with its first reply. -/
theorem readAll?_of_read? {stream rest : Bytes} {r : Reply} (h : read? stream = some (r, rest)) :
    readAll? stream = (readAll? rest).map (r :: ·) := by
  have hne : stream ≠ [] := by
    rintro rfl
    exact Nat.not_lt_zero _ (length_lt_of_read? h)
  rw [readAll?, if_neg hne]
  split
  · next hnone =>
    rw [h] at hnone
    cases hnone
  · next r' rest' hsome =>
    rw [h] at hsome
    obtain ⟨rfl, rfl⟩ := Prod.mk.inj (Option.some.inj hsome)
    rfl

/-- **A row of replies reads back**, one after the other. -/
theorem readAll?_flatMap_write {rs : List Reply}
    (h : ∀ r ∈ rs, r.Proper ∧ r.encodedLength < 0x100000000) :
    readAll? (rs.flatMap write) = some rs := by
  induction rs with
  | nil => exact readAll?_nil
  | cons r rs ih =>
    obtain ⟨⟨hproper, hlength⟩, hrest⟩ := List.forall_mem_cons.1 h
    rw [List.flatMap_cons, readAll?_of_read? (read?_write hproper hlength _), ih hrest,
      Option.map_some]

end Reply

end PrefixCache

import PrefixCache.Request.Command
/-!
# Reading requests

A body and the request that it is read as give each other back
(`Request.ofBody_body`, `Request.body_of_ofBody`). As for the fields in a
payload, a key is admitted when it is not empty, holds no space and is not
too long. Each reader accepts just the payloads that have an admitted key
where it looks for one, with one space between two fields, and gives these
fields back (`key_eq_ok` to `ttlKeyValue_eq_ok`). In particular an admitted
key alone is read as itself (`key_of_admits`).
-/

namespace PrefixCache

/-! ## Bodies -/

/-- The bytes after the length of a request. -/
def Request.body (r : Request) : Bytes := Bytes.word 2 r.opcode.code ++ r.payload

/-- A body is that of the request which it is read as. -/
theorem Request.body_of_ofBody {body : Bytes} {r : Request} (h : ofBody body = .ok r) :
    r.body = body := by
  unfold ofBody at h
  split at h
  · cases h
  · next word payload hcut =>
    obtain ⟨rfl, hwidth⟩ := Bytes.cut?_eq_some.1 hcut
    split at h
    · cases h
    · next op hop =>
      cases h
      rw [body, Opcode.code_of_ofCode? hop, ← hwidth, Bytes.word_value]

/-- **A request is read from its body.** -/
theorem Request.ofBody_body (r : Request) : ofBody r.body = .ok r := by
  have hcode : r.opcode.code < Bytes.wordCount 2 := by
    cases r.opcode <;> exact of_decide_eq_true rfl
  simp only [ofBody, body, Bytes.cut?_word, Bytes.value_word hcode, Opcode.ofCode?_code]

namespace FieldLimits

variable {limits : FieldLimits} {payload key value rest front : Bytes} {field : String}

/-! ## Cutting at a space -/

/-- What has a space is cut there. -/
theorem cutAtSpace_append (h : separator ∉ front) (rest : Bytes) :
    cutAtSpace (front ++ separator :: rest) = (front, some rest) := by
  have hall : ∀ b ∈ front, (b != separator) = true := by
    intro b hb
    simp only [bne_iff_ne]
    rintro rfl
    exact h hb
  have hdrop : (front ++ separator :: rest).dropWhile (· != separator) = separator :: rest := by
    rw [List.dropWhile_append_of_pos hall]
    rfl
  have htake : (front ++ separator :: rest).takeWhile (· != separator) = front := by
    rw [List.takeWhile_append_of_pos hall]
    simp
  simp only [cutAtSpace, hdrop, htake]

/-- What has none is not. -/
theorem cutAtSpace_of_not_mem (h : separator ∉ front) : cutAtSpace front = (front, none) := by
  have hjoin := join_cutAtSpace front
  generalize cutAtSpace front = parts at hjoin
  obtain ⟨front', _ | rest⟩ := parts
  · rw [hjoin.1]
  · refine absurd ?_ h
    rw [hjoin.1]
    simp

/-! ## Keys and values -/

/-- The key may be used. -/
def Admits (limits : FieldLimits) (key : Bytes) : Prop :=
  key ≠ [] ∧ separator ∉ key ∧ key.length ≤ limits.maxKey

instance (limits : FieldLimits) (key : Bytes) : Decidable (limits.Admits key) :=
  inferInstanceAs (Decidable (_ ∧ _))

theorem checkKey_eq_ok {key' : Bytes} : limits.checkKey key = .ok key' ↔
    key = key' ∧ key ≠ [] ∧ key.length ≤ limits.maxKey := by
  unfold checkKey
  by_cases hempty : key = []
  · simp [hempty]
  · by_cases hlong : limits.maxKey < key.length
    · rw [if_neg hempty, if_pos hlong]
      exact iff_of_false nofun fun h => Nat.not_lt.2 h.2.2 hlong
    · rw [if_neg hempty, if_neg hlong]
      exact ⟨fun h => ⟨Except.ok.inj h, hempty, Nat.not_lt.1 hlong⟩, fun h => congrArg _ h.1⟩

theorem checkValue_eq_ok {value' : Bytes} : limits.checkValue value = .ok value' ↔
    value = value' ∧ value.length ≤ limits.maxValue := by
  unfold checkValue
  by_cases hlong : limits.maxValue < value.length
  · rw [if_pos hlong]
    exact iff_of_false nofun fun h => Nat.not_lt.2 h.2 hlong
  · rw [if_neg hlong]
    exact ⟨fun h => ⟨Except.ok.inj h, Nat.not_lt.1 hlong⟩, fun h => congrArg _ h.1⟩

/-! ## Readers -/

/-- **A key is read** from a payload that begins with it, where a space comes
next or nothing. -/
theorem key_eq_ok : limits.key payload = .ok key ↔
    limits.Admits key ∧ (payload = key ∨ ∃ rest, payload = key ++ separator :: rest) := by
  rw [FieldLimits.key, checkKey_eq_ok]
  constructor
  · rintro ⟨hfront, hne, hlength⟩
    have hjoin := join_cutAtSpace payload
    generalize cutAtSpace payload = parts at hjoin hfront hne hlength
    obtain ⟨front, _ | rest⟩ := parts
    · obtain rfl : front = key := hfront
      exact ⟨⟨hne, hjoin.2, hlength⟩, .inl hjoin.1⟩
    · obtain rfl : front = key := hfront
      exact ⟨⟨hne, hjoin.2, hlength⟩, .inr ⟨rest, hjoin.1⟩⟩
  · rintro ⟨⟨hne, hspace, hlength⟩, rfl | ⟨rest, rfl⟩⟩
    · rw [cutAtSpace_of_not_mem hspace]
      exact ⟨rfl, hne, hlength⟩
    · rw [cutAtSpace_append hspace]
      exact ⟨rfl, hne, hlength⟩

/-- **An admitted key alone is read as itself.** -/
theorem key_of_admits (h : limits.Admits key) : limits.key key = .ok key :=
  key_eq_ok.2 ⟨h, .inl rfl⟩

/-- **A key and a field** are what stands before the first space and after
it. -/
theorem keyAndField_eq_ok : limits.keyAndField payload field = .ok (key, rest) ↔
    limits.Admits key ∧ payload = key ++ separator :: rest := by
  constructor
  · intro h
    have hjoin := join_cutAtSpace payload
    unfold keyAndField at h
    generalize cutAtSpace payload = parts at hjoin h
    obtain ⟨front, found⟩ := parts
    simp only at h
    cases hcheck : limits.checkKey front with
    | error e => rw [hcheck] at h; cases h
    | ok key' =>
      obtain ⟨rfl, hne, hlength⟩ := checkKey_eq_ok.1 hcheck
      cases found with
      | none => rw [hcheck] at h; cases h
      | some rest' =>
        rw [hcheck] at h
        obtain ⟨rfl, rfl⟩ := Prod.mk.inj (Except.ok.inj h)
        exact ⟨⟨hne, hjoin.2, hlength⟩, hjoin.1⟩
  · rintro ⟨⟨hne, hspace, hlength⟩, rfl⟩
    simp only [keyAndField, cutAtSpace_append hspace, checkKey_eq_ok.2 ⟨rfl, hne, hlength⟩]

/-- **A key and a value** are a key and a field that is not too long. -/
theorem keyAndValue_eq_ok : limits.keyAndValue payload = .ok (key, value) ↔
    limits.Admits key ∧ value.length ≤ limits.maxValue ∧
      payload = key ++ separator :: value := by
  unfold keyAndValue
  constructor
  · intro h
    cases hread : limits.keyAndField payload "value" with
    | error e => rw [hread] at h; cases h
    | ok fields =>
      rw [hread] at h
      simp only at h
      cases hcheck : limits.checkValue fields.2 with
      | error e => rw [hcheck] at h; cases h
      | ok value' =>
        rw [hcheck] at h
        obtain ⟨rfl, rfl⟩ := Prod.mk.inj (Except.ok.inj h)
        obtain ⟨rfl, hlength⟩ := checkValue_eq_ok.1 hcheck
        obtain ⟨hkey, hpayload⟩ := keyAndField_eq_ok.1 hread
        exact ⟨hkey, hlength, hpayload⟩
  · rintro ⟨hkey, hlength, hpayload⟩
    simp only [keyAndField_eq_ok.2 ⟨hkey, hpayload⟩, checkValue_eq_ok.2 ⟨rfl, hlength⟩]
    rfl

/-- **A time to live, a key and a value**: the time is a number before the
first space. -/
theorem ttlKeyValue_eq_ok {ttl : Int64} :
    limits.ttlKeyValue payload = .ok (ttl, key, value) ↔
      ∃ front, Value.integer? front = some ttl ∧ separator ∉ front ∧ limits.Admits key ∧
        value.length ≤ limits.maxValue ∧
        payload = front ++ separator :: (key ++ separator :: value) := by
  unfold ttlKeyValue
  constructor
  · intro h
    have hjoin := join_cutAtSpace payload
    generalize cutAtSpace payload = parts at hjoin h
    obtain ⟨front, _ | rest⟩ := parts
    · cases h
    · simp only at h
      cases httl : Value.integer? front with
      | none => rw [httl] at h; cases h
      | some ttl' =>
        rw [httl] at h
        simp only at h
        cases hread : limits.keyAndValue rest with
        | error e => rw [hread] at h; cases h
        | ok fields =>
          rw [hread] at h
          cases h
          obtain ⟨hkey, hlength, rfl⟩ := keyAndValue_eq_ok.1 hread
          exact ⟨front, httl, hjoin.2, hkey, hlength, hjoin.1⟩
  · rintro ⟨front, httl, hspace, hkey, hlength, rfl⟩
    simp only [cutAtSpace_append hspace, httl, keyAndValue_eq_ok.2 ⟨hkey, hlength, rfl⟩]
    rfl

end FieldLimits

end PrefixCache

import PrefixCache.Proofs.Decimal.Numeral
import PrefixCache.Proofs.Request.Fields
/-!
# The grammar of a payload

A number is written as a run of digits with at most one sign in front
(`Numeral`), and a field is read as an integer exactly when it is a numeral
of that integer (`Value.integer?_eq_some`). With that each layout of a
payload has a grammar which does not say how to read it: a way to split the
payload into its fields. The readers accept the payloads that can be split
and give the fields back, and no payload can be split in two ways
(`FieldLimits.readers_accept_their_grammar`).
-/

namespace PrefixCache

/-! ## Numerals -/

/-- The byte is an ASCII digit. -/
def IsDigit (b : UInt8) : Prop := 0x30 ≤ b ∧ b ≤ 0x39

instance (b : UInt8) : Decidable (IsDigit b) := inferInstanceAs (Decidable (_ ∧ _))

/-- The field is a run of digits. -/
def Digits (field : Bytes) : Prop := field ≠ [] ∧ ∀ b ∈ field, IsDigit b

/-- The number that digits spell in base ten; the last one counts ones. -/
def spelled (digits : Bytes) : Nat :=
  Nat.ofDigits 10 (digits.reverse.map fun b => b.toNat - 0x30)

/-- The field writes the integer in base ten, with one sign in front or
none. Leading zeros do not matter. -/
inductive Numeral : Bytes → Int → Prop
  | bare {digits : Bytes} : Digits digits → Numeral digits (spelled digits)
  | plus {digits : Bytes} : Digits digits → Numeral (0x2b :: digits) (spelled digits)
  | minus {digits : Bytes} : Digits digits → Numeral (0x2d :: digits) (-spelled digits)

/-! ## Reading a numeral -/

theorem isDigit_ofUInt8 (b : UInt8) : (Char.ofUInt8 b).isDigit = true ↔ IsDigit b := by
  have hval : (Char.ofUInt8 b).val = b.toUInt32 := rfl
  simp only [Char.isDigit, hval, IsDigit, Bool.and_eq_true, decide_eq_true_eq, ge_iff_le,
    UInt32.le_iff_toNat_le, UInt8.le_iff_toNat_le, UInt8.toNat_toUInt32]
  rfl

theorem ofUInt8_inj {b b' : UInt8} (h : Char.ofUInt8 b = Char.ofUInt8 b') : b = b' :=
  UInt8.toNat_inj.1 (congrArg Char.toNat h)

/-- A field is a run of digits when its characters are. -/
theorem isRun_map_ofUInt8 {field : Bytes} :
    Decimal.IsRun (field.map Char.ofUInt8) ↔ Digits field := by
  simp [Decimal.IsRun, Digits, isDigit_ofUInt8]

theorem worth_map_ofUInt8 (digits : Bytes) :
    Decimal.worth (digits.map Char.ofUInt8) = spelled digits := by
  rw [Decimal.worth, spelled, ← List.map_reverse, List.map_map]
  rfl

/-- **A field is a numeral when its characters are.** -/
theorem signed_map_ofUInt8 {field : Bytes} {z : Int} :
    Decimal.Signed (field.map Char.ofUInt8) z ↔ Numeral field z := by
  constructor
  · generalize hcs : field.map Char.ofUInt8 = cs
    rintro (hbare | hplus | hminus)
    · subst hcs
      rw [worth_map_ofUInt8]
      exact .bare (isRun_map_ofUInt8.1 hbare)
    · obtain ⟨b, digits, rfl, hb, rfl⟩ := List.map_eq_cons_iff.1 hcs
      obtain rfl : b = 0x2b := ofUInt8_inj hb
      rw [worth_map_ofUInt8]
      exact .plus (isRun_map_ofUInt8.1 hplus)
    · obtain ⟨b, digits, rfl, hb, rfl⟩ := List.map_eq_cons_iff.1 hcs
      obtain rfl : b = 0x2d := ofUInt8_inj hb
      rw [worth_map_ofUInt8]
      exact .minus (isRun_map_ofUInt8.1 hminus)
  · rintro (hbare | hplus | hminus) <;> rw [← worth_map_ofUInt8]
    · exact .bare (isRun_map_ofUInt8.2 hbare)
    · exact .plus (isRun_map_ofUInt8.2 hplus)
    · exact .minus (isRun_map_ofUInt8.2 hminus)

/-- **A field is read as an integer just when it is a numeral of it.** -/
theorem Value.integer?_eq_some {field : Bytes} {n : Int64} :
    Value.integer? field = some n ↔ Numeral field n.toInt := by
  rw [Value.integer?, Decimal.int64?_eq_some, signed_map_ofUInt8]

/-! ## Layouts -/

namespace FieldLimits

variable {limits : FieldLimits} {payload : Bytes}

/-- A payload that begins with a key, where a space comes next or nothing. -/
structure Lead (limits : FieldLimits) (payload : Bytes) where
  key : Bytes
  admits : limits.Admits key
  joined : payload = key ∨ ∃ rest, payload = key ++ separator :: rest

/-- A payload that is a key and what follows it, with one space between. -/
structure Pair (limits : FieldLimits) (payload : Bytes) where
  key : Bytes
  rest : Bytes
  admits : limits.Admits key
  joined : payload = key ++ separator :: rest

/-- A payload that is a numeral, a key and a value, with one space between
two of them. -/
structure Timed (limits : FieldLimits) (payload : Bytes) where
  front : Bytes
  ttl : Int64
  key : Bytes
  value : Bytes
  numeral : Numeral front ttl.toInt
  unbroken : separator ∉ front
  admits : limits.Admits key
  fits : value.length ≤ limits.maxValue
  joined : payload = front ++ separator :: (key ++ separator :: value)

/-- **There is one first space.** -/
theorem append_separator_inj {front front' rest rest' : Bytes} (h : separator ∉ front)
    (h' : separator ∉ front') (hjoin : front ++ separator :: rest = front' ++ separator :: rest') :
    front = front' ∧ rest = rest' := by
  have hcut := congrArg cutAtSpace hjoin
  rw [cutAtSpace_append h, cutAtSpace_append h'] at hcut
  obtain ⟨hfront, hrest⟩ := Prod.mk.inj hcut
  exact ⟨hfront, Option.some.inj hrest⟩

instance : Subsingleton (limits.Lead payload) where
  allEq e e' := by
    have hkey : ∀ e : limits.Lead payload, (cutAtSpace payload).1 = e.key := by
      rintro ⟨key, ⟨-, hspace, -⟩, rfl | ⟨rest, rfl⟩⟩
      · rw [cutAtSpace_of_not_mem hspace]
      · rw [cutAtSpace_append hspace]
    have heq := (hkey e).symm.trans (hkey e')
    cases e
    cases e'
    cases heq
    rfl

instance : Subsingleton (limits.Pair payload) where
  allEq e e' := by
    obtain ⟨hkey, hrest⟩ :=
      append_separator_inj e.admits.2.1 e'.admits.2.1 (e.joined.symm.trans e'.joined)
    cases e
    cases e'
    cases hkey
    cases hrest
    rfl

instance : Subsingleton (limits.Timed payload) where
  allEq e e' := by
    obtain ⟨hfront, hrest⟩ :=
      append_separator_inj e.unbroken e'.unbroken (e.joined.symm.trans e'.joined)
    obtain ⟨hkey, hvalue⟩ := append_separator_inj e.admits.2.1 e'.admits.2.1 hrest
    have httl : e.ttl = e'.ttl := by
      have hread := Value.integer?_eq_some.2 e.numeral
      rw [hfront, Value.integer?_eq_some.2 e'.numeral] at hread
      exact (Option.some.inj hread).symm
    cases e
    cases e'
    cases hfront
    cases httl
    cases hkey
    cases hvalue
    rfl

/-- **Each reader accepts its grammar and nothing else.** Whatever the
limits and the payload: there is at most one way to split the payload, and
the fields that a reader gives are those of such a split. It fails when
there is none. A time to live is a numeral that fits in 64 bits, a key is
not empty, holds no space and is not too long, and the length of what
comes last is bounded for a value only. -/
theorem readers_accept_their_grammar (limits : FieldLimits) (payload : Bytes) :
    (Subsingleton (limits.Timed payload) ∧ ∀ ttl key value,
      limits.ttlKeyValue payload = .ok (ttl, key, value) ↔
        ∃ e : limits.Timed payload, e.ttl = ttl ∧ e.key = key ∧ e.value = value) ∧
    (Subsingleton (limits.Pair payload) ∧
      (∀ key value, limits.keyAndValue payload = .ok (key, value) ↔
        ∃ e : limits.Pair payload,
          e.key = key ∧ e.rest = value ∧ e.rest.length ≤ limits.maxValue) ∧
      ∀ field key rest, limits.keyAndField payload field = .ok (key, rest) ↔
        ∃ e : limits.Pair payload, e.key = key ∧ e.rest = rest) ∧
    (Subsingleton (limits.Lead payload) ∧ ∀ key, limits.key payload = .ok key ↔
      ∃ e : limits.Lead payload, e.key = key) := by
  refine ⟨⟨inferInstance, fun ttl key value => ?_⟩,
    ⟨inferInstance, fun key value => ?_, fun field key rest => ?_⟩, inferInstance, fun key => ?_⟩
  · rw [ttlKeyValue_eq_ok]
    constructor
    · rintro ⟨front, hread, hspace, hkey, hlength, hjoin⟩
      exact ⟨⟨front, ttl, key, value, Value.integer?_eq_some.1 hread, hspace, hkey, hlength, hjoin⟩,
        rfl, rfl, rfl⟩
    · rintro ⟨e, rfl, rfl, rfl⟩
      exact ⟨e.front, Value.integer?_eq_some.2 e.numeral, e.unbroken, e.admits, e.fits, e.joined⟩
  · rw [keyAndValue_eq_ok]
    constructor
    · rintro ⟨hkey, hlength, hjoin⟩
      exact ⟨⟨key, value, hkey, hjoin⟩, rfl, rfl, hlength⟩
    · rintro ⟨e, rfl, rfl, hlength⟩
      exact ⟨e.admits, hlength, e.joined⟩
  · rw [keyAndField_eq_ok]
    constructor
    · rintro ⟨hkey, hjoin⟩
      exact ⟨⟨key, rest, hkey, hjoin⟩, rfl, rfl⟩
    · rintro ⟨e, rfl, rfl⟩
      exact ⟨e.admits, e.joined⟩
  · rw [key_eq_ok]
    constructor
    · rintro ⟨hkey, hjoin⟩
      exact ⟨⟨key, hkey, hjoin⟩, rfl⟩
    · rintro ⟨e, rfl⟩
      exact ⟨e.admits, e.joined⟩

end FieldLimits

end PrefixCache

import Mathlib.Data.Nat.Digits.Defs
import Mathlib.Tactic.Ring
import PrefixCache.Decimal.Reading
/-!
# Numerals

A natural number is written as a run of digits (`IsRun`), and what they
spell is told from the back, where the last one counts ones (`worth`). An
integer may have one sign in front (`Signed`). The readers of numbers are
exact: they accept what spells a number that fits, and give that number
(`natural?_eq_some`, `int64?_eq_some`).
-/

namespace PrefixCache

namespace Decimal

/-- The text is a run of digits. -/
def IsRun (cs : List Char) : Prop := cs ≠ [] ∧ ∀ c ∈ cs, c.isDigit = true

/-- The number that digits spell in base ten; the last one counts ones. -/
def worth (digits : List Char) : Nat :=
  Nat.ofDigits 10 (digits.reverse.map fun c => c.toNat - '0'.toNat)

/-- The text writes the integer in base ten, with one sign in front or
none. Leading zeros do not matter. -/
inductive Signed : List Char → Int → Prop
  | bare {digits : List Char} : IsRun digits → Signed digits (worth digits)
  | plus {digits : List Char} : IsRun digits → Signed ('+' :: digits) (worth digits)
  | minus {digits : List Char} : IsRun digits → Signed ('-' :: digits) (-worth digits)

/-! ## Runs of digits -/

theorem worth_cons (d : Char) (rest : List Char) :
    worth (d :: rest) = worth rest + 10 ^ rest.length * (d.toNat - '0'.toNat) := by
  simp only [worth, List.reverse_cons, List.map_append, List.map_cons, List.map_nil,
    Nat.ofDigits_append, Nat.ofDigits_singleton, List.length_map, List.length_reverse]

theorem ofDigits_cons (start : Nat) (d : Char) (rest : List Char) :
    ofDigits start (d :: rest) = ofDigits (10 * start + (d.toNat - '0'.toNat)) rest := by
  conv => lhs; unfold ofDigits

/-- **Digits taken from the front spell what they spell from the back.** -/
theorem ofDigits_eq_worth (start : Nat) (digits : List Char) :
    ofDigits start digits = 10 ^ digits.length * start + worth digits := by
  induction digits generalizing start with
  | nil =>
    rw [List.length_nil, Nat.pow_zero, Nat.one_mul]
    rfl
  | cons d rest ih =>
    rw [ofDigits_cons, ih, worth_cons, List.length_cons, Nat.pow_succ]
    ring

/-- **A run of digits is read as the number it spells**, unless that is too
large. -/
theorem natural?_eq_some {most n : Nat} {cs : List Char} :
    natural? most cs = some n ↔ IsRun cs ∧ worth cs = n ∧ n ≤ most := by
  have hrun : (cs ≠ [] ∧ cs.all Char.isDigit) ↔ IsRun cs := by simp [IsRun]
  have hvalue : ofDigits 0 cs = worth cs := by
    rw [ofDigits_eq_worth, Nat.mul_zero, Nat.zero_add]
  rw [natural?, ofDigits?_eq, hvalue]
  by_cases hdigits : IsRun cs
  · rw [if_pos (hrun.2 hdigits)]
    by_cases hmost : worth cs ≤ most
    · rw [if_pos hmost]
      exact ⟨fun h => ⟨hdigits, Option.some.inj h, Option.some.inj h ▸ hmost⟩,
        fun h => congrArg some h.2.1⟩
    · rw [if_neg hmost]
      exact iff_of_false nofun fun h => hmost (h.2.1 ▸ h.2.2)
  · rw [if_neg (hdigits ∘ hrun.1)]
    exact iff_of_false nofun fun h => hdigits h.1

/-! ## Signs -/

/-- What begins with a sign is no run of digits. -/
theorem not_isRun_cons {c : Char} {rest : List Char} (h : ¬ c.isDigit = true) :
    ¬ IsRun (c :: rest) :=
  fun hrun => h (hrun.2 c List.mem_cons_self)

theorem signed_plus {digits : List Char} {z : Int} :
    Signed ('+' :: digits) z ↔ IsRun digits ∧ z = worth digits := by
  constructor
  · rintro (hbare | hplus | _)
    · exact absurd hbare (not_isRun_cons (by decide))
    · exact ⟨hplus, rfl⟩
  · rintro ⟨hdigits, rfl⟩
    exact .plus hdigits

theorem signed_minus {digits : List Char} {z : Int} :
    Signed ('-' :: digits) z ↔ IsRun digits ∧ z = -worth digits := by
  constructor
  · rintro (hbare | _ | hminus)
    · exact absurd hbare (not_isRun_cons (by decide))
    · exact ⟨hminus, rfl⟩
  · rintro ⟨hdigits, rfl⟩
    exact .minus hdigits

theorem signed_bare {cs : List Char} {z : Int} (hplus : ∀ rest, cs ≠ '+' :: rest)
    (hminus : ∀ rest, cs ≠ '-' :: rest) : Signed cs z ↔ IsRun cs ∧ z = worth cs := by
  constructor
  · rintro (hbare | _ | _)
    · exact ⟨hbare, rfl⟩
    · exact absurd rfl (hplus _)
    · exact absurd rfl (hminus _)
  · rintro ⟨hdigits, rfl⟩
    exact .bare hdigits

/-- With its sign a run of digits is an integer, unless that does not fit in
64 bits. -/
theorem signed_eq_some {most : Nat} {digits : List Char} {n : Int64} (sign : Int → Int)
    (hrange : ∀ k : Nat, k ≤ most ↔ -2 ^ 63 ≤ sign k ∧ sign k < 2 ^ 63) :
    (Option.map (fun z => Int64.ofInt (sign z)) do
        let k ← natural? most digits
        pure (k : Int)) = some n ↔
      IsRun digits ∧ n.toInt = sign (worth digits) := by
  simp only [Option.map_eq_some_iff, Option.bind_eq_bind, Option.bind_eq_some_iff,
    natural?_eq_some, Option.pure_def, Option.some.injEq]
  constructor
  · rintro ⟨_, ⟨_, ⟨hdigits, rfl, hmost⟩, rfl⟩, rfl⟩
    obtain ⟨hlow, hhigh⟩ := (hrange _).1 hmost
    exact ⟨hdigits, Int64.toInt_ofInt_of_le hlow hhigh⟩
  · rintro ⟨hdigits, hn⟩
    have hmost : worth digits ≤ most :=
      (hrange _).2 (hn ▸ ⟨Int64.le_toInt n, Int64.toInt_lt n⟩)
    exact ⟨_, ⟨_, ⟨hdigits, rfl, hmost⟩, rfl⟩, hn ▸ Int64.ofInt_toInt n⟩

/-- **A text is read as an integer just when it is a numeral of it.** -/
theorem int64?_eq_some {cs : List Char} {n : Int64} :
    int64? cs = some n ↔ Signed cs n.toInt := by
  unfold int64?
  split
  · rw [signed_minus]
    refine signed_eq_some (fun z => -z) fun k => ?_
    omega
  · rw [signed_plus]
    refine signed_eq_some (fun z => z) fun k => ?_
    omega
  · next hminus hplus =>
    rw [signed_bare]
    · refine signed_eq_some (fun z => z) fun k => ?_
      omega
    · rintro rest rfl
      exact hplus _ rfl
    · rintro rest rfl
      exact hminus _ rfl

/-- A numeral is one of a single integer. -/
theorem Signed.unique {cs : List Char} {z z' : Int} (h : Signed cs z) (h' : Signed cs z') :
    z = z' := by
  cases h with
  | plus _ => exact (signed_plus.1 h').2.symm
  | minus _ => exact (signed_minus.1 h').2.symm
  | bare hdigits =>
    have hplus (rest : List Char) : cs ≠ '+' :: rest := by
      rintro rfl
      exact not_isRun_cons (by decide) hdigits
    have hminus (rest : List Char) : cs ≠ '-' :: rest := by
      rintro rfl
      exact not_isRun_cons (by decide) hdigits
    exact ((signed_bare hplus hminus).1 h').2.symm

/-- **A natural number as it is shown is a numeral of it.** -/
theorem signed_toString (n : Nat) : Signed (toString n).toList n := by
  have hshown : (toString n).toList = Nat.toDigits 10 n := Nat.toList_repr
  have hrun : IsRun (Nat.toDigits 10 n) :=
    ⟨Nat.toDigits_ne_nil, fun _ hc => Nat.isDigit_of_mem_toDigits (by decide) (by decide) hc⟩
  have hfold (start : Nat) (cs : List Char) : ofDigits start cs = Nat.ofDigitChars 10 cs start := by
    induction cs generalizing start with
    | nil => rfl
    | cons d rest ih => rw [ofDigits_cons, ih, Nat.ofDigitChars_cons]
  have hworth : worth (Nat.toDigits 10 n) = n := by
    have hspelled := ofDigits_eq_worth 0 (Nat.toDigits 10 n)
    rw [hfold, Nat.ofDigitChars_ten_toDigits, Nat.mul_zero, Nat.zero_add] at hspelled
    exact hspelled.symm
  have hsigned := Signed.bare hrun
  rwa [hworth, ← hshown] at hsigned

end Decimal

end PrefixCache

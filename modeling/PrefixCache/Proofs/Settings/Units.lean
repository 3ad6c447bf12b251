import PrefixCache.Proofs.Decimal.Numeral
import PrefixCache.Proofs.Text.Trimming
import PrefixCache.Settings.Units
/-!
# The language of sizes and durations

An amount is a number with a unit (`Units.Amount`): a run of digits, blanks
or none, and the name of a unit in letters of either case, with blanks
around all of it. A text is cut into a number and a unit just when it is
such an amount (`Units.amount_iff`). So a text is read as a size when it is
an amount of a unit of size, and as a duration when it is an amount of a
unit of time, unless what it comes to does not fit in 64 bits; and no other
text is read (`Units.amounts_are_read_exactly`).
-/

namespace PrefixCache

namespace Units

open Text

/-! ## Tables of units -/

/-- A table of units: their names in lower case, and what they stand for. -/
abbrev Table := List (List Char × Nat)

/-- The units of size, in bytes. -/
def sizes : Table :=
  [([], 1), (['b'], 1), (['k'], 2 ^ 10), (['k', 'b'], 2 ^ 10), (['m'], 2 ^ 20),
    (['m', 'b'], 2 ^ 20), (['g'], 2 ^ 30), (['g', 'b'], 2 ^ 30)]

/-- The units of time that are whole seconds, in seconds. -/
def times : Table := [([], 1), (['s'], 1), (['m'], 60), (['h'], 3600), (['d'], 86400)]

/-- The unit of time that is shorter than a second, in milliseconds. -/
def instants : Table := [(['m', 's'], 1)]

/-- All names in the table are in lower case. -/
def Table.Lower (table : Table) : Prop := ∀ unit ∈ table, ∀ c ∈ unit.1, c.isLower = true

instance (table : Table) : Decidable table.Lower :=
  decidable_of_iff (table.all fun unit => unit.1.all Char.isLower) (by simp [Table.Lower])

/-- The text is so many of a unit in the table that stands for `per`. -/
def Amount (table : Table) (cs : List Char) (count per : Nat) : Prop :=
  ∃ digits gap unit, Trimmed cs (digits ++ gap ++ unit) ∧
    Decimal.IsRun digits ∧ Decimal.worth digits = count ∧ count < 2 ^ 64 ∧
    Blank gap ∧ (unit.map Char.toLower, per) ∈ table

variable {cs unit : List Char} {n count per : Nat}

theorem bytesPer?_eq_some : bytesPer? unit = some per ↔ (unit, per) ∈ sizes := by
  simp only [sizes, List.mem_cons, Prod.mk.injEq, List.not_mem_nil, or_false]
  unfold bytesPer?
  grind

theorem secondsPer?_eq_some : secondsPer? unit = some per ↔ (unit, per) ∈ times := by
  simp only [times, List.mem_cons, Prod.mk.injEq, List.not_mem_nil, or_false]
  unfold secondsPer?
  grind

theorem mem_instants : (unit, 1) ∈ instants ↔ unit = ['m', 's'] := by simp [instants]

/-! ## Letters -/

/-- A character that is a lower case letter once its case is dropped lies
between the capitals and the small letters of ASCII. -/
theorem bounds_of_letter {c : Char} (h : c.toLower.isLower = true) :
    0x41 ≤ c.toNat ∧ c.toNat ≤ 0x7a := by
  have hval : c.toNat = c.val.toNat := rfl
  by_cases hup : c.val ≥ 'A'.val ∧ c.val ≤ 'Z'.val
  · have hlow := UInt32.le_iff_toNat_le.1 hup.1
    have hhigh := UInt32.le_iff_toNat_le.1 hup.2
    simp only [Char.reduceVal, UInt32.reduceToNat] at hlow hhigh
    omega
  · -- what is no capital keeps its case, so it is a small letter itself
    have hsame : c.toLower = c := dif_neg hup
    rw [hsame] at h
    obtain ⟨hlow, hhigh⟩ := Bool.and_eq_true_iff.1 h
    have hlow := UInt32.le_iff_toNat_le.1 (of_decide_eq_true hlow)
    have hhigh := UInt32.le_iff_toNat_le.1 (of_decide_eq_true hhigh)
    simp only [Char.reduceVal, UInt32.reduceToNat] at hlow hhigh
    omega

theorem isDigit_iff {c : Char} : c.isDigit = true ↔ 0x30 ≤ c.toNat ∧ c.toNat ≤ 0x39 := by
  simp [Char.isDigit, UInt32.le_iff_toNat_le, ← Char.toNat_val]

theorem isBlank_of_letter {c : Char} (h : c.toLower.isLower = true) : isBlank c = false := by
  have hbounds := bounds_of_letter h
  simp [isBlank, blankRanges]
  omega

theorem isDigit_of_letter {c : Char} (h : c.toLower.isLower = true) : c.isDigit = false := by
  have hbounds := bounds_of_letter h
  refine Bool.eq_false_iff.2 fun hdigit => ?_
  have := isDigit_iff.1 hdigit
  omega

/-- A blank is no digit. -/
theorem isDigit_of_isBlank {c : Char} (h : isBlank c = true) : c.isDigit = false := by
  refine Bool.eq_false_iff.2 fun hdigit => ?_
  have hbounds := isDigit_iff.1 hdigit
  simp [isBlank, blankRanges] at h
  omega

/-! ## Amounts -/

/-- Digits in front of what begins with none are cut off there. -/
theorem span_digits {digits rest : List Char} (hdigits : Decimal.IsRun digits)
    (hrest : ∀ c ∈ rest.head?, c.isDigit = false) :
    (digits ++ rest).takeWhile Char.isDigit = digits ∧
      (digits ++ rest).dropWhile Char.isDigit = rest := by
  rw [List.takeWhile_append_of_pos hdigits.2, List.dropWhile_append_of_pos hdigits.2]
  cases rest with
  | nil => simp
  | cons c rest => simp [hrest c rfl]

/-- What follows the digits of a trimmed text is trimmed behind. -/
theorem trimmed_rest {digits rest : List Char} (h : Trimmed cs (digits ++ rest)) :
    ∃ gap, Blank gap ∧ rest = gap ++ trim rest := by
  obtain ⟨gap, after, hgap, hafter, hrest⟩ := (trimmed_trim rest).around
  refine ⟨gap, hgap, ?_⟩
  cases hlast : after.getLast? with
  | none =>
    rw [List.getLast?_eq_none_iff.1 hlast, List.append_nil] at hrest
    exact hrest
  | some c =>
    -- a blank behind would be the last character of the trimmed text
    have hblank := hafter c (List.mem_of_getLast? hlast)
    have hwhole : c ∈ (digits ++ rest).getLast? := by
      rw [hrest, ← List.append_assoc, List.getLast?_append, hlast]
      rfl
    rw [h.last c hwhole] at hblank
    cases hblank

/-- **A text is cut into a number and a unit just when it is an amount.** -/
theorem amount_iff {table : Table} (hlower : table.Lower) :
    Amount table cs count per ↔
      ∃ unit, cut? cs = some (count, unit) ∧ (unit, per) ∈ table := by
  have hbound : count ≤ wordBound - 1 ↔ count < 2 ^ 64 := by
    unfold wordBound
    omega
  constructor
  · rintro ⟨digits, gap, unit, htrim, hdigits, hworth, hcount, hgap, hunit⟩
    have hletter : ∀ c ∈ unit, c.toLower.isLower = true := fun c hc =>
      hlower _ hunit _ (List.mem_map_of_mem hc)
    have hrest : ∀ c ∈ (gap ++ unit).head?, c.isDigit = false := by
      intro c hc
      rcases List.mem_append.1 (List.mem_of_mem_head? hc) with hin | hin
      · exact isDigit_of_isBlank (hgap c hin)
      · exact isDigit_of_letter (hletter c hin)
    have hunitTrim : trim (gap ++ unit) = unit := by
      refine trimmed_iff.1 ⟨⟨gap, [], hgap, fun _ => nofun, (List.append_nil _).symm⟩, ?_, ?_⟩
      · exact fun c hc => isBlank_of_letter (hletter c (List.mem_of_mem_head? hc))
      · exact fun c hc => isBlank_of_letter (hletter c (List.mem_of_getLast? hc))
    obtain ⟨htake, hdrop⟩ := span_digits hdigits hrest
    have hread := Decimal.natural?_eq_some.2 ⟨hdigits, hworth, hbound.2 hcount⟩
    refine ⟨_, ?_, hunit⟩
    simp only [cut?]
    rw [trimmed_iff.1 htrim, List.append_assoc, htake, hdrop, hread, hunitTrim]
  · rintro ⟨unit, hcut, hunit⟩
    simp only [cut?] at hcut
    split at hcut
    · cases hcut
    · next count' hread =>
      obtain ⟨rfl, rfl⟩ := Prod.mk.inj (Option.some.inj hcut)
      obtain ⟨hdigits, hworth, hcount⟩ := Decimal.natural?_eq_some.1 hread
      have hsplit := List.takeWhile_append_dropWhile (p := Char.isDigit) (l := trim cs)
      have htrim := trimmed_trim cs
      rw [← hsplit] at htrim
      obtain ⟨gap, hgap, hrest⟩ := trimmed_rest htrim
      rw [hrest, ← List.append_assoc] at htrim
      exact ⟨_, gap, _, htrim, hdigits, hworth, hbound.1 hcount, hgap, hunit⟩

/-- **A text is read as a size just when it is an amount of a unit of
size** that comes to what fits in 64 bits. -/
theorem size?_eq_some :
    size? cs = some n ↔ ∃ count per, Amount sizes cs count per ∧ n = count * per ∧ n < 2 ^ 64 := by
  have hlower : sizes.Lower := by decide
  simp only [amount_iff hlower, ← bytesPer?_eq_some]
  unfold size? wordBound
  constructor
  · intro h
    split at h
    · cases h
    · next count unit hcut =>
      split at h
      · cases h
      · next per hper =>
        split at h
        · next hfits =>
          obtain rfl := Option.some.inj h
          exact ⟨count, per, ⟨unit, hcut, hper⟩, rfl, hfits⟩
        · cases h
  · rintro ⟨count, per, ⟨unit, hcut, hper⟩, rfl, hfits⟩
    simp only [hcut, hper]
    exact if_pos hfits

/-- **A text is read as a duration just when it is an amount of a unit of
time** that comes to what fits in 64 bits, in its unit or in seconds. -/
theorem duration?_eq_some :
    duration? cs = some n ↔ Amount instants cs n 1 ∨
      ∃ count per, Amount times cs count per ∧ n = 1000 * (count * per) ∧
        count * per < 2 ^ 64 := by
  have hlower : times.Lower ∧ instants.Lower := by decide
  simp only [amount_iff hlower.1, amount_iff hlower.2, ← secondsPer?_eq_some, mem_instants]
  unfold duration? wordBound
  constructor
  · intro h
    split at h
    · cases h
    · next count unit hcut =>
      split at h
      · next hunit =>
        obtain rfl := Option.some.inj h
        exact .inl ⟨unit, hcut, hunit⟩
      · split at h
        · cases h
        · next per hper =>
          split at h
          · next hfits =>
            obtain rfl := Option.some.inj h
            exact .inr ⟨count, per, ⟨unit, hcut, hper⟩, rfl, hfits⟩
          · cases h
  · rintro (⟨unit, hcut, rfl⟩ | ⟨count, per, ⟨unit, hcut, hper⟩, rfl, hfits⟩)
    · simp only [hcut, if_true]
    · have hseconds : unit ≠ ['m', 's'] := by
        rintro rfl
        cases hper
      simp only [hcut, if_neg hseconds, hper]
      exact if_pos hfits

/-- **Sizes and durations are read exactly.** A text is a size just when it
is, without the blanks around it, a run of digits, blanks or none, and a
unit of size in letters of either case, where the number and the bytes it
comes to fit in 64 bits: then these are the bytes. It is a duration just
when it is such a number of milliseconds, or of another unit of time where
the seconds it comes to fit in 64 bits, too. Any other text is neither; a
product is never taken modulo anything. -/
theorem amounts_are_read_exactly (cs : List Char) :
    (∀ n, size? cs = some n ↔
      ∃ count per, Amount sizes cs count per ∧ n = count * per ∧ n < 2 ^ 64) ∧
    (size? cs = none ↔ ∀ count per, Amount sizes cs count per → 2 ^ 64 ≤ count * per) ∧
    (∀ millis, duration? cs = some millis ↔ Amount instants cs millis 1 ∨
      ∃ count per, Amount times cs count per ∧ millis = 1000 * (count * per) ∧
        count * per < 2 ^ 64) ∧
    (duration? cs = none ↔ (∀ count, ¬ Amount instants cs count 1) ∧
      ∀ count per, Amount times cs count per → 2 ^ 64 ≤ count * per) := by
  refine ⟨fun n => size?_eq_some, ?_, fun millis => duration?_eq_some, ?_⟩
  · rw [Option.eq_none_iff_forall_ne_some]
    constructor
    · intro hnone count per hamount
      by_contra hfits
      exact hnone _ (size?_eq_some.2 ⟨count, per, hamount, rfl, Nat.lt_of_not_le hfits⟩)
    · intro hlarge n hread
      obtain ⟨count, per, hamount, rfl, hfits⟩ := size?_eq_some.1 hread
      exact Nat.not_lt.2 (hlarge count per hamount) hfits
  · rw [Option.eq_none_iff_forall_ne_some]
    constructor
    · intro hnone
      refine ⟨fun count hamount => hnone _ (duration?_eq_some.2 (.inl hamount)),
        fun count per hamount => ?_⟩
      by_contra hfits
      exact hnone _ (duration?_eq_some.2
        (.inr ⟨count, per, hamount, rfl, Nat.lt_of_not_le hfits⟩))
    · rintro ⟨hinstant, hlarge⟩ millis hread
      rcases duration?_eq_some.1 hread with hamount | ⟨count, per, hamount, -, hfits⟩
      · exact hinstant _ hamount
      · exact Nat.not_lt.2 (hlarge count per hamount) hfits

-- the last size that fits, and the first that does not
example : size? "17179869183 Gb".toList = some 18446744072635809792 := by decide +kernel

example : size? "17179869184 Gb".toList = none := by decide +kernel

end Units

end PrefixCache

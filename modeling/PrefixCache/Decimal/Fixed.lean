/-!
# Decimals with fixed places

Averages are written with a fixed number of places. The binary value is
rounded as it is, exactly, and a tie goes to the even neighbour:
`roundDiv` is that rounding on naturals, never more than half a unit off
(`roundDiv_close`).
-/

namespace PrefixCache

namespace Decimal

/-- The quotient of two naturals rounded to the nearest natural, a tie to
the even one. -/
def roundDiv (num den : Nat) : Nat :=
  let down := num / den
  let twice := 2 * (num % den)
  if twice < den then down
  else if twice = den then down + down % 2
  else down + 1

/-- **Rounding is never more than half a unit off.** -/
theorem roundDiv_close (num : Nat) {den : Nat} (h : 0 < den) :
    2 * num ≤ 2 * den * roundDiv num den + den ∧ 2 * den * roundDiv num den ≤ 2 * num + den := by
  have hdiv := Nat.div_add_mod num den
  have hmod := Nat.mod_lt num h
  unfold roundDiv
  generalize num / den = q at *
  generalize num % den = r at *
  subst hdiv
  have hq : q % 2 = 0 ∨ q % 2 = 1 := by omega
  simp only
  split
  · simp only [Nat.mul_assoc, Nat.mul_add]
    omega
  · split
    · rcases hq with hq | hq <;> simp only [hq, Nat.mul_assoc, Nat.mul_add, Nat.mul_one] <;> omega
    · simp only [Nat.mul_assoc, Nat.mul_add, Nat.mul_one]
      omega

/-- How many units of the last of `places` places make up one. -/
def unitsPerOne : (places : Nat) → Nat
  | 0 => 1
  | places + 1 => 10 * unitsPerOne places

/-- A natural number of units of the last of `places` places, written
out. -/
def writeUnits (places units : Nat) : String :=
  if places = 0 then toString units
  else
    let fraction := toString (units % unitsPerOne places)
    toString (units / unitsPerOne places) ++ "."
      ++ String.ofList (List.replicate (places - fraction.length) '0') ++ fraction

/-- A double with the given number of places. -/
def fixed (places : Nat) (x : Float) : String :=
  let bits := x.toBits.toNat
  let sign := if bits >>> 63 = 0 then "" else "-"
  let exponent := bits >>> 52 % 2048
  let fraction := bits - bits >>> 52 <<< 52
  if exponent = 2047 then
    if fraction = 0 then sign ++ "inf" else "NaN"
  else
    let mantissa := if exponent = 0 then fraction else fraction + 1 <<< 52
    let power := max exponent 1
    let units :=
      if 1075 ≤ power then mantissa <<< (power - 1075) * unitsPerOne places
      else roundDiv (mantissa * unitsPerOne places) (1 <<< (1075 - power))
    sign ++ writeUnits places units

end Decimal

end PrefixCache

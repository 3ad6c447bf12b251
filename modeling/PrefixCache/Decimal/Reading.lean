/-!
# Reading decimal numbers

A natural number is a non-empty run of ASCII digits, and a signed one may
have a single sign in front. Nothing else may stand in the text, not even
a blank. A number that does not fit its word is no number.
-/

namespace PrefixCache

namespace Decimal

/-- The number spelled by a run of digits, continuing from `start`. -/
def ofDigits (start : Nat) : List Char → Nat
  | [] => start
  | d :: rest => ofDigits (10 * start + (d.toNat - '0'.toNat)) rest

/-- The same number if it is at most `most`. One that has grown beyond that
is not read any further. -/
def ofDigits? (most start : Nat) : List Char → Option Nat
  | [] => if start ≤ most then some start else none
  | d :: rest =>
    if start ≤ most then ofDigits? most (10 * start + (d.toNat - '0'.toNat)) rest else none

/-- Reads a natural number that is at most `most`. -/
def natural? (most : Nat) (cs : List Char) : Option Nat :=
  if cs ≠ [] ∧ cs.all Char.isDigit then ofDigits? most 0 cs else none

/-- Reads an integer with an optional sign that fits in 64 bits. -/
def int64? : List Char → Option Int64
  | '-' :: cs => (natural? 0x8000000000000000 cs).map fun n => Int64.ofInt (-(n : Int))
  | '+' :: cs => (natural? 0x7fffffffffffffff cs).map fun n => Int64.ofInt n
  | cs => (natural? 0x7fffffffffffffff cs).map fun n => Int64.ofInt n

theorem le_ofDigits (start : Nat) (digits : List Char) : start ≤ ofDigits start digits := by
  induction digits generalizing start with
  | nil => exact Nat.le_refl _
  | cons d rest ih => exact Nat.le_trans (by omega) (ih _)

/-- **Stopping early loses no number**: what is read is the number spelled
by all digits, whenever that is small enough. -/
theorem ofDigits?_eq (most start : Nat) (digits : List Char) :
    ofDigits? most start digits =
      if ofDigits start digits ≤ most then some (ofDigits start digits) else none := by
  induction digits generalizing start with
  | nil => rfl
  | cons d rest ih =>
    unfold ofDigits? ofDigits
    split
    · exact ih _
    · next h =>
      have := le_ofDigits (10 * start + (d.toNat - '0'.toNat)) rest
      rw [if_neg (by omega)]

end Decimal

end PrefixCache

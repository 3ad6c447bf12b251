import PrefixCache.Decimal.Reading
import PrefixCache.Text.Blank
/-!
# Sizes and durations

A size is a number of bytes with an optional unit, and a duration is a
number with an optional unit of time. Blanks may stand around both and
between number and unit. Everything must fit in 64 bits: a product that
does not is no size and no duration.
-/

namespace PrefixCache

namespace Units

/-- The bound below which sizes, and durations in seconds, must lie. -/
def wordBound : Nat := 0x10000000000000000

/-- Cuts a text into a number and the unit after it, in lower case. -/
def cut? (cs : List Char) : Option (Nat × List Char) :=
  let cs := Text.trim cs
  match Decimal.natural? (wordBound - 1) (cs.takeWhile Char.isDigit) with
  | none => none
  | some n => some (n, (Text.trim (cs.dropWhile Char.isDigit)).map Char.toLower)

/-- How many bytes a unit of size stands for. -/
def bytesPer? (unit : List Char) : Option Nat :=
  if unit = [] ∨ unit = ['b'] then some 1
  else if unit = ['k'] ∨ unit = ['k', 'b'] then some 1024
  else if unit = ['m'] ∨ unit = ['m', 'b'] then some (1024 * 1024)
  else if unit = ['g'] ∨ unit = ['g', 'b'] then some (1024 * 1024 * 1024)
  else none

/-- How many seconds a unit of time stands for. -/
def secondsPer? (unit : List Char) : Option Nat :=
  if unit = [] ∨ unit = ['s'] then some 1
  else if unit = ['m'] then some 60
  else if unit = ['h'] then some 3600
  else if unit = ['d'] then some 86400
  else none

/-- Reads a size in bytes. -/
def size? (cs : List Char) : Option Nat :=
  match cut? cs with
  | none => none
  | some (n, unit) =>
    match bytesPer? unit with
    | none => none
    | some u => if n * u < wordBound then some (n * u) else none

/-- Reads a duration in milliseconds. -/
def duration? (cs : List Char) : Option Nat :=
  match cut? cs with
  | none => none
  | some (n, unit) =>
    if unit = ['m', 's'] then some n
    else
      match secondsPer? unit with
      | none => none
      | some u => if n * u < wordBound then some (1000 * (n * u)) else none

end Units

end PrefixCache

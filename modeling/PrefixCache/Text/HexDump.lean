import PrefixCache.Bytes
/-!
# Hex dumps

A dump shows bytes sixteen to a row: the position, the bytes in
hexadecimal, and the same bytes as characters where they are printable
ASCII.
-/

namespace PrefixCache

namespace Text

/-- A number in at least `width` lower-case hexadecimal digits. -/
def hex (width n : Nat) : String :=
  let digits := Nat.toDigits 16 n
  String.ofList (List.replicate (width - digits.length) '0' ++ digits)

/-- The character that stands for a byte in a dump. -/
def printable (b : UInt8) : Char :=
  if 0x20 ≤ b ∧ b < 0x7F then Char.ofUInt8 b else '.'

/-- One row of a dump, of up to sixteen bytes. -/
def hexRow (position : Nat) (row : Bytes) : String :=
  hex 4 position ++ "  "
    ++ String.join (row.map fun b => hex 2 b.toNat ++ " ")
    ++ String.join (List.replicate (16 - row.length) "   ")
    ++ " " ++ String.ofList (row.map printable)

/-- The rows of a dump, from the given position on. -/
def hexRows (position : Nat) (bs : Bytes) : (rows : Nat) → List String
  | 0 => []
  | rows + 1 => hexRow position (bs.take 16) :: hexRows (position + 16) (bs.drop 16) rows

/-- The dump of the first `most` bytes. -/
def hexDump (bs : Bytes) (most : Nat) : String :=
  let shown := bs.take most
  String.intercalate "\n" (hexRows 0 shown ((shown.length + 15) / 16))

end Text

end PrefixCache

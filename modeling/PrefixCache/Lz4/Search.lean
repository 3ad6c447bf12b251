import PrefixCache.Lz4.Block
/-!
# Choosing the steps of a block

The steps are chosen greedily, from left to right. A table remembers, for
the hash of the bytes at a position, where they were met last; a position
whose remembered partner starts with the same four bytes, at most 65535
back, becomes a repetition, extended to both sides as far as it goes. The
longer nothing is found, the larger the strides. The last twelve bytes
start no repetition and the last six are never part of one.
-/

namespace PrefixCache

namespace Lz4

/-- The farthest a repetition can reach back. -/
def farthest : Nat := 65535

/-- How many positions the table remembers. -/
def tableSize : Nat := 4096

/-- The byte at a position. -/
def byteAt (d : Array UInt8) (i : Nat) : UInt8 := d.getD i 0

/-- The four bytes from a position on, as one word. -/
def word32At (d : Array UInt8) (i : Nat) : UInt32 :=
  (byteAt d i).toUInt32 ||| (byteAt d (i + 1)).toUInt32 <<< 8
    ||| (byteAt d (i + 2)).toUInt32 <<< 16 ||| (byteAt d (i + 3)).toUInt32 <<< 24

/-- The eight bytes from a position on, as one word. -/
def word64At (d : Array UInt8) (i : Nat) : UInt64 :=
  (word32At d i).toUInt64 ||| (word32At d (i + 4)).toUInt64 <<< 32

/-- The place in the table for a position: short inputs are hashed by four
bytes, long ones by five. -/
def place (d : Array UInt8) (i : Nat) : Nat :=
  if d.size < 65535 then ((word32At d i * 2654435761) >>> 20).toNat
  else ((word64At d i <<< 24 * 889523592379) >>> 52).toNat

/-- Whether the same `shortestMatch` bytes start at two positions. -/
def sameStart (d : Array UInt8) (i j : Nat) : Bool :=
  (List.range shortestMatch).all fun k => byteAt d (i + k) == byteAt d (j + k)

/-- Looks for the next repetition from `i` on. The answer holds the two
positions that agree, the earlier first. -/
def probe (d : Array UInt8) : (fuel : Nat) → (table : Array Nat) → (i strides : Nat) →
    Array Nat × Option (Nat × Nat)
  | 0, table, _, _ => (table, none)
  | fuel + 1, table, i, strides =>
    if d.size < i + 12 then (table, none)
    else
      let h := place d i
      let partner := table.getD h 0
      let table := table.setIfInBounds h i
      if i - partner ≤ farthest ∧ partner < i ∧ sameStart d partner i then
        (table, some (partner, i))
      else
        probe d fuel table (i + strides / 32) (strides + 1)

/-- Extends a repetition to the left: both positions move back while the
bytes before them agree, but not into bytes that are already spoken
for. -/
def stepBack (d : Array UInt8) (spoken : Nat) : (partner i : Nat) → Nat × Nat
  | 0, i => (0, i)
  | partner + 1, i =>
    if spoken < i ∧ byteAt d (i - 1) = byteAt d partner then stepBack d spoken partner (i - 1)
    else (partner + 1, i)

/-- Extends a repetition to the right, over at most `room` bytes, and
gives its length. -/
def agree (d : Array UInt8) : (room partner i length : Nat) → Nat
  | 0, _, _, length => length
  | room + 1, partner, i, length =>
    if byteAt d i = byteAt d partner then agree d room (partner + 1) (i + 1) (length + 1)
    else length

/-- The bytes between two positions. -/
def between (d : Array UInt8) (i j : Nat) : Bytes := (d.extract i j).toList

/-- Chooses steps from position `i` on, where the bytes before `spoken`
are already covered; `chosen` holds the steps so far, the last first. -/
def choose (d : Array UInt8) : (fuel : Nat) → (table : Array Nat) → (spoken i : Nat) →
    (chosen : List Step) → Block
  | 0, _, spoken, _, chosen => ⟨chosen.reverse, between d spoken d.size⟩
  | fuel + 1, table, spoken, i, chosen =>
    match probe d d.size table i 32 with
    | (_, none) => ⟨chosen.reverse, between d spoken d.size⟩
    | (table, some (partner, i)) =>
      -- The four bytes that were found stay in the middle of the repetition.
      let (from', start) := stepBack d spoken partner i
      let length := agree d (d.size - 6 - (start + shortestMatch))
        (from' + shortestMatch) (start + shortestMatch) shortestMatch
      let stop := start + length
      -- One position inside the repetition is remembered, all others are skipped.
      let table := table.setIfInBounds (place d (stop - 2)) (stop - 2)
      choose d fuel table stop stop (⟨between d spoken start, start - from', length⟩ :: chosen)

/-- The block chosen for an input. Inputs of less than thirteen bytes are
copied as they are. -/
def blockOf (data : Bytes) : Block :=
  let d := data.toArray
  if d.size < 13 then ⟨[], data⟩
  else choose d d.size (Array.replicate tableSize 0) 0 1 []

end Lz4

end PrefixCache

import PrefixCache.Bytes
/-!
# LZ4 blocks

A block is a list of steps and a tail. A step copies some bytes as they
are and then repeats bytes that have come out already; the tail is copied
as it is. This file writes blocks (`Block.write`) and says what a block
stands for (`Block.expand`), without saying how the steps were chosen.
-/

namespace PrefixCache

namespace Lz4

/-- The shortest repetition a step can hold. -/
def shortestMatch : Nat := 4

/-- A step of a block: bytes copied as they are, then `length` bytes
repeated from `offset` back. -/
structure Step where
  literals : Bytes
  offset : Nat
  length : Nat
  deriving Repr, DecidableEq

/-- A block: steps, then bytes copied as they are. -/
structure Block where
  steps : List Step
  tail : Bytes
  deriving Repr, DecidableEq

/-! ## The written form -/

/-- What a four-bit length field holds of a length. -/
def nibble (n : Nat) : Nat := min n 15

/-- What follows for a length that fills its four-bit field: bytes that
add up to the rest, the last of them below 255. -/
def overflow (n : Nat) : Bytes :=
  if n < 15 then []
  else List.replicate ((n - 15) / 255) 255 ++ [UInt8.ofNat ((n - 15) % 255)]

/-- The bytes of a step. -/
def Step.write (s : Step) : Bytes :=
  let repeated := s.length - shortestMatch
  UInt8.ofNat (16 * nibble s.literals.length + nibble repeated)
    :: (overflow s.literals.length ++ s.literals ++ Bytes.word 2 s.offset ++ overflow repeated)

/-- The bytes of a block. -/
def Block.write (b : Block) : Bytes :=
  b.steps.flatMap Step.write
    ++ UInt8.ofNat (16 * nibble b.tail.length) :: (overflow b.tail.length ++ b.tail)

/-! ## What a block stands for -/

/-- Repeats `count` bytes from `offset` back, one at a time, so that a
repetition may reach into itself. -/
def repeatBack (offset : Nat) : (count : Nat) → Array UInt8 → Array UInt8
  | 0, out => out
  | count + 1, out => repeatBack offset count (out.push (out.getD (out.size - offset) 0))

/-- What has come out after a step. -/
def Step.expand (out : Array UInt8) (s : Step) : Array UInt8 :=
  repeatBack s.offset s.length (out.appendList s.literals)

/-- The bytes a block stands for. -/
def Block.expand (b : Block) : Array UInt8 :=
  (b.steps.foldl Step.expand #[]).appendList b.tail

end Lz4

end PrefixCache

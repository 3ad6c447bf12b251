import PrefixCache.Bytes
/-!
# Showing bytes as text

A value is shown as UTF-8 even when it is not. Every maximal run of bytes
that begins a character and does not finish it is shown as one replacement
character, and so is every byte that can begin none.
-/

namespace PrefixCache

namespace Text

/-- A character that has been begun: the bits read so far, how many bytes
are still missing, and the range the next one must lie in. -/
structure Begun where
  bits : Nat
  missing : Nat
  low : Nat := 0x80
  high : Nat := 0xBF

/-- What a byte means at the start of a character: a whole character, the
start of a longer one, or nothing. -/
inductive Lead where
  | whole (c : Char)
  | starts (b : Begun)
  | stray

/-- The role of a byte in first position. The narrowed ranges keep out
overlong forms, surrogates and code points above `U+10FFFF`. -/
def lead (b : Nat) : Lead :=
  if b < 0x80 then .whole (Char.ofNat b)
  else if b < 0xC2 then .stray
  else if b < 0xE0 then .starts ⟨b - 0xC0, 1, 0x80, 0xBF⟩
  else if b = 0xE0 then .starts ⟨0, 2, 0xA0, 0xBF⟩
  else if b = 0xED then .starts ⟨0xD, 2, 0x80, 0x9F⟩
  else if b < 0xF0 then .starts ⟨b - 0xE0, 2, 0x80, 0xBF⟩
  else if b = 0xF0 then .starts ⟨0, 3, 0x90, 0xBF⟩
  else if b < 0xF4 then .starts ⟨b - 0xF0, 3, 0x80, 0xBF⟩
  else if b = 0xF4 then .starts ⟨4, 3, 0x80, 0x8F⟩
  else .stray

/-- The replacement character. -/
def replacement : Char := Char.ofNat 0xFFFD

/-- Reads one byte in first position. -/
def readLead (shown : String) (b : Nat) : String × Option Begun :=
  match lead b with
  | .whole c => (shown.push c, none)
  | .starts s => (shown, some s)
  | .stray => (shown.push replacement, none)

/-- Reads one byte: it goes on with the character that has been begun, or
breaks it off and is read in first position. -/
def readByte : String × Option Begun → UInt8 → String × Option Begun
  | (shown, none), b => readLead shown b.toNat
  | (shown, some s), b =>
    let n := b.toNat
    if s.low ≤ n ∧ n ≤ s.high then
      let bits := s.bits * 64 + (n - 0x80)
      if s.missing ≤ 1 then (shown.push (Char.ofNat bits), none)
      else (shown, some { bits, missing := s.missing - 1 })
    else
      readLead (shown.push replacement) n

/-- The text shown for a byte string. -/
def lossy (bs : Bytes) : String :=
  match bs.foldl readByte ("", none) with
  | (shown, none) => shown
  | (shown, some _) => shown.push replacement

end Text

end PrefixCache

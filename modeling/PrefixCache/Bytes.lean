/-!
# Byte strings

Keys, values and streams are byte strings, and the numbers in frames and
replies are little-endian words. This file holds both, with the two facts
everything else rests on: a word of `k` bytes has `k` bytes
(`length_word`), and reading back what was written gives the number again
when it fits (`value_word`).
-/

namespace PrefixCache

/-- A byte string: a key, a stored value, or a piece of a stream. -/
abbrev Bytes := List UInt8

/-- What a signed word of 64 bits keeps of a number: the number itself if it
fits, else what is left of it when whole multiples of `2 ^ 64` are taken
off. -/
def wrap64 (z : Int) : Int := Int.bmod z 0x10000000000000000

/-- The number fits in a signed word of 64 bits. -/
def FitsInt64 (z : Int) : Prop := -9223372036854775808 ≤ z ∧ z < 9223372036854775808

instance (z : Int) : Decidable (FitsInt64 z) := inferInstanceAs (Decidable (_ ∧ _))

/-- **A number that fits is kept as it is.** -/
theorem wrap64_of_fits {z : Int} (h : FitsInt64 z) : wrap64 z = z := by
  obtain ⟨hlow, hhigh⟩ := h
  unfold wrap64
  exact Int.bmod_eq_of_le (by omega) (by omega)

/-- The 64-bit two's complement reading of a natural number: the number
itself below `2 ^ 63`, negative from there on. -/
def signed64 (n : Nat) : Int := wrap64 n

theorem signed64_of_lt {n : Nat} (h : n < 9223372036854775808) : signed64 n = n :=
  wrap64_of_fits ⟨by omega, by omega⟩

theorem signed64_le (n : Nat) : signed64 n ≤ n := by
  unfold signed64 wrap64 Int.bmod
  simp only
  split <;> omega

/-- The upper half of the words is read as negative numbers. -/
theorem signed64_neg {n : Nat} (hlow : 9223372036854775808 ≤ n) (hhigh : n < 18446744073709551616) :
    signed64 n < 0 := by
  unfold signed64 wrap64 Int.bmod
  simp only
  split <;> omega

namespace Bytes

/-- The bytes of a text in UTF-8. -/
def ofText (s : String) : Bytes := s.toUTF8.toList

/-- The low `width` bytes of a number, least significant first. -/
def word : (width : Nat) → Nat → Bytes
  | 0, _ => []
  | width + 1, n => UInt8.ofNat n :: word width (n / 256)

/-- How many words of `width` bytes there are. -/
def wordCount : (width : Nat) → Nat
  | 0 => 1
  | width + 1 => 256 * wordCount width

/-- The number spelled by a byte string, least significant byte first. -/
def value : Bytes → Nat
  | [] => 0
  | b :: rest => b.toNat + 256 * value rest

/-- The eight bytes of a signed integer. -/
def ofInt64 (n : Int64) : Bytes := word 8 n.toUInt64.toNat

/-- The number spelled by a byte string of `width` bytes, read in two's
complement. -/
def signedValue (width : Nat) (bs : Bytes) : Int := Int.bmod (value bs) (wordCount width)

/-- Cuts off the first `n` bytes, when there are that many. -/
def cut? (n : Nat) (bs : Bytes) : Option (Bytes × Bytes) :=
  if (bs.take n).length = n then some (bs.take n, bs.drop n) else none

theorem length_word (width n : Nat) : (word width n).length = width := by
  induction width generalizing n with
  | zero => rfl
  | succ width ih => simp [word, ih]

theorem value_lt (bs : Bytes) : value bs < wordCount bs.length := by
  induction bs with
  | nil => simp [value, wordCount]
  | cons b rest ih =>
    have := b.toNat_lt
    simp only [value, List.length_cons, wordCount]
    omega

/-- **A word that fits reads back.** -/
theorem value_word {width n : Nat} (h : n < wordCount width) : value (word width n) = n := by
  induction width generalizing n with
  | zero =>
    simp only [wordCount] at h
    simp only [word, value]
    omega
  | succ width ih =>
    have hd : n / 256 < wordCount width := by
      simp only [wordCount] at h
      omega
    have hb : (UInt8.ofNat n).toNat = n % 256 := by simp
    simp only [word, value, ih hd, hb]
    omega

/-- **Reading a word and writing it gives the same bytes.** -/
theorem word_value (bs : Bytes) : word bs.length (value bs) = bs := by
  induction bs with
  | nil => rfl
  | cons b rest ih =>
    have hb := b.toNat_lt
    have hfirst : UInt8.ofNat (b.toNat + 256 * value rest) = b := by
      apply UInt8.toNat_inj.1
      rw [UInt8.toNat_ofNat']
      omega
    have hrest : (b.toNat + 256 * value rest) / 256 = value rest := by omega
    simp only [List.length_cons, value, word, hfirst, hrest, ih]

/-- A cut succeeds exactly when the string is long enough, and loses no
byte. -/
theorem cut?_eq_some {n : Nat} {bs front rest : Bytes} :
    cut? n bs = some (front, rest) ↔ bs = front ++ rest ∧ front.length = n := by
  unfold cut?
  constructor
  · intro h
    split at h
    · next hl =>
      obtain ⟨rfl, rfl⟩ := Prod.mk.inj (Option.some.inj h)
      exact ⟨(List.take_append_drop n bs).symm, hl⟩
    · cases h
  · rintro ⟨rfl, rfl⟩
    simp

theorem cut?_append {n : Nat} {front : Bytes} (h : front.length = n) (rest : Bytes) :
    cut? n (front ++ rest) = some (front, rest) :=
  cut?_eq_some.2 ⟨rfl, h⟩

theorem cut?_word (width n : Nat) (rest : Bytes) :
    cut? width (word width n ++ rest) = some (word width n, rest) :=
  cut?_append (length_word width n) rest

theorem cut?_eq_none {n : Nat} {bs : Bytes} : cut? n bs = none ↔ bs.length < n := by
  unfold cut?
  split
  · next h =>
    rw [List.length_take] at h
    exact iff_of_false nofun (by omega)
  · next h =>
    rw [List.length_take] at h
    exact iff_of_true rfl (by omega)

end Bytes

end PrefixCache

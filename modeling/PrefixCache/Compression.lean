import PrefixCache.Lz4.Search
import PrefixCache.Lz4.Reading
/-!
# Compression of values

A compressed value is the length of the plain bytes in four bytes, then an
LZ4 block. It is kept only when that saves at least `leastSaving` bytes,
so a compressed value is always shorter than what it stands for
(`compress_saves`).
-/

namespace PrefixCache

namespace Compression

/-- How many bytes compression has to save to be worth it. -/
def leastSaving : Nat := 4

/-- The compressed form of a value. -/
def pack (data : Bytes) : Bytes := Bytes.word 4 data.length ++ (Lz4.blockOf data).write

/-- The compressed form of a value, when it saves enough. -/
def compress? (data : Bytes) : Option Bytes :=
  let packed := pack data
  if packed.length + leastSaving ≤ data.length then some packed else none

/-- The value a compressed form stands for. -/
def restore (packed : Bytes) : Except Lz4.Damage Bytes :=
  match Bytes.cut? 4 packed with
  | none => .error .cutShort
  | some (size, block) => Lz4.readBlock (Bytes.value size) block

/-- The wording of a failed restoration. -/
def message (e : Lz4.Damage) : String := "corrupt compressed value: " ++ e.message

/-- What is kept compressed is shorter by at least `leastSaving`. -/
theorem compress_saves {data packed : Bytes} (h : compress? data = some packed) :
    packed.length + leastSaving ≤ data.length := by
  simp only [compress?] at h
  split at h
  · next hle => cases h; exact hle
  · cases h

end Compression

end PrefixCache

import PrefixCache.ByteQueue
/-!
# Read buffers

A connection reads into a buffer and uses up what it has read from the
front. What still fits bounds every single read. A full buffer makes room:
it moves what is pending to the front, grows, or gives way to a new one.
Room is then never lacking (`room_makeRoom_pos`), and no pending byte is
lost (`pending_makeRoom`).

A buffer that shares bytes with stored values is left to them and not used
again. So a buffer remembers the keys it has lent bytes to since it was
last found to be its connection's alone.
-/

namespace PrefixCache

/-- What a connection has read. -/
structure ReadBuffer where
  /-- How many buffers the connection has given up before. -/
  number : Nat := 0
  /-- How many bytes at the front are used up. -/
  used : Nat := 0
  /-- The bytes after those, which are not. -/
  pending : ByteQueue := .empty
  /-- How many more bytes fit after the pending ones. -/
  room : Nat := 4096
  /-- The keys under which values were stored that came in this buffer. -/
  lent : List Bytes := []
  deriving Repr, DecidableEq

namespace ReadBuffer

/-- The size of a new buffer. -/
def usualSize : Nat := 4096

/-- The least room that is made. -/
def leastRoom : Nat := 64

/-- Uses up the first `n` pending bytes, when there are that many. -/
def cut? (n : Nat) (b : ReadBuffer) : Option (Bytes × ReadBuffer) :=
  match b.pending.cut? n with
  | none => none
  | some (front, rest) => some (front, { b with used := b.used + n, pending := rest })

/-- Takes bytes that were read. -/
def fill (b : ReadBuffer) (bs : Bytes) : ReadBuffer :=
  { b with pending := b.pending.push bs, room := b.room - bs.length }

/-- Remembers keys whose values came in the buffer. -/
def lend (b : ReadBuffer) (keys : List Bytes) : ReadBuffer := { b with lent := keys ++ b.lent }

/-- Makes room in a full buffer. One that still shares bytes is given up
for a new one. Otherwise what is pending moves to the front when at least
half of the buffer is used up, and else the buffer doubles. -/
def makeRoom (b : ReadBuffer) (shared : Bool) : ReadBuffer :=
  if shared then
    { number := b.number + 1, pending := b.pending
      room := max leastRoom (usualSize - b.pending.size) }
  else if leastRoom ≤ b.used ∧ b.pending.size ≤ b.used then
    { b with used := 0, room := b.used, lent := [] }
  else { b with room := max leastRoom (b.used + b.pending.size), lent := [] }

/-- A cut loses no pending byte, and leaves the room as it is. -/
theorem cut?_eq_some {n : Nat} {b rest : ReadBuffer} {front : Bytes}
    (h : b.cut? n = some (front, rest)) :
    b.pending.toBytes = front ++ rest.pending.toBytes ∧ front.length = n ∧
      b.pending.size = n + rest.pending.size ∧ rest.room = b.room := by
  unfold cut? at h
  split at h
  · cases h
  · next hcut =>
    obtain ⟨rfl, rfl⟩ := Prod.mk.inj (Option.some.inj h)
    obtain ⟨hb, hn, hsize⟩ := ByteQueue.cut?_eq_some hcut
    exact ⟨hb, hn, hsize, rfl⟩

/-- Making room loses no pending byte. -/
@[simp] theorem pending_makeRoom (b : ReadBuffer) (shared : Bool) :
    (b.makeRoom shared).pending = b.pending := by
  unfold makeRoom
  split
  · rfl
  · split <;> rfl

/-- **There is room once room was made.** -/
theorem room_makeRoom_pos (b : ReadBuffer) (shared : Bool) : 0 < (b.makeRoom shared).room := by
  unfold makeRoom leastRoom
  split
  · simp only
    omega
  · split
    · simp only
      omega
    · simp only
      omega

end ReadBuffer

end PrefixCache

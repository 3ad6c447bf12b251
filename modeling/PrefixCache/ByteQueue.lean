import PrefixCache.Bytes
/-!
# Queues of bytes

Bytes are added behind, piece by piece, and taken in front. What a queue
holds is `toBytes`; adding appends to it (`toBytes_push`), and a cut splits
it (`append_toBytes_cut`). The pieces are joined only when bytes are taken,
so a piece costs no more than itself.
-/

namespace PrefixCache

/-- A queue of bytes. -/
structure ByteQueue where
  /-- The pieces, the last one first. -/
  pieces : List Bytes := []
  /-- How many bytes there are. -/
  size : Nat := 0
  size_eq : size = pieces.reverse.flatten.length := by rfl
  deriving Repr, DecidableEq

namespace ByteQueue

/-- No bytes. -/
def empty : ByteQueue := {}

/-- The bytes of a queue, in order. -/
def toBytes (q : ByteQueue) : Bytes := q.pieces.reverse.flatten

/-- Pieces as one byte string. A single piece is not copied. -/
def joined : List Bytes → Bytes
  | [] => []
  | [piece] => piece
  | pieces => pieces.reverse.flatten

/-- Adds a piece. -/
def push (q : ByteQueue) (piece : Bytes) : ByteQueue :=
  { pieces := piece :: q.pieces
    size := q.size + piece.length
    size_eq := by simp [q.size_eq] }

theorem joined_eq (pieces : List Bytes) : joined pieces = pieces.reverse.flatten := by
  unfold joined
  split <;> simp

theorem size_eq_length (q : ByteQueue) : q.size = q.toBytes.length := q.size_eq

/-- Takes up to `n` bytes. -/
def cut (q : ByteQueue) (n : Nat) : Bytes × ByteQueue :=
  let all := joined q.pieces
  (all.take n,
    { pieces := [all.drop n]
      size := q.size - n
      size_eq := by simp [all, joined_eq, q.size_eq] })

/-- Takes `n` bytes, when there are that many. -/
def cut? (q : ByteQueue) (n : Nat) : Option (Bytes × ByteQueue) :=
  if n ≤ q.size then some (q.cut n) else none

@[simp] theorem toBytes_push (q : ByteQueue) (piece : Bytes) :
    (q.push piece).toBytes = q.toBytes ++ piece := by
  simp [toBytes, push]

@[simp] theorem size_push (q : ByteQueue) (piece : Bytes) :
    (q.push piece).size = q.size + piece.length := rfl

@[simp] theorem cut_fst (q : ByteQueue) (n : Nat) : (q.cut n).1 = q.toBytes.take n := by
  simp [cut, joined_eq, toBytes]

@[simp] theorem toBytes_cut (q : ByteQueue) (n : Nat) :
    (q.cut n).2.toBytes = q.toBytes.drop n := by
  simp [cut, joined_eq, toBytes]

@[simp] theorem size_cut (q : ByteQueue) (n : Nat) : (q.cut n).2.size = q.size - n := rfl

/-- **A cut loses no byte.** -/
theorem append_toBytes_cut (q : ByteQueue) (n : Nat) :
    (q.cut n).1 ++ (q.cut n).2.toBytes = q.toBytes := by
  simp

/-- A queue that is cut has enough bytes, and loses none of them. -/
theorem cut?_eq_some {q rest : ByteQueue} {n : Nat} {front : Bytes}
    (h : q.cut? n = some (front, rest)) :
    q.toBytes = front ++ rest.toBytes ∧ front.length = n ∧ q.size = n + rest.size := by
  unfold cut? at h
  split at h
  · next hn =>
    have hc : q.cut n = (front, rest) := Option.some.inj h
    have hfront : q.toBytes.take n = front := by rw [← cut_fst, hc]
    have hbytes : front ++ rest.toBytes = q.toBytes := by
      rw [← q.append_toBytes_cut n, hc]
    have hsize : rest.size = q.size - n := by rw [← q.size_cut n, hc]
    refine ⟨hbytes.symm, ?_, ?_⟩
    · rw [← hfront, List.length_take, ← size_eq_length]
      exact Nat.min_eq_left hn
    · omega
  · cases h

end ByteQueue

end PrefixCache

import PrefixCache.Trie.Basic
import Mathlib.Data.List.Nodup
/-!
# What the slots of a trie hold

`get?` is the view of the slots, and `occupants` is what they hold, node
by node. Swapping one slot changes the view at that node only
(`get?_swap`), and the occupants by one going out and one coming in at
the same place (`exists_occupants_swap`). A trie is `Tallied` when its
count of occupied slots is right; the count is then right after every
swap (`Tallied.swap`), which says that it never has to be cut off at
zero.
-/

namespace PrefixCache

namespace Trie

variable {α : Type} {t : Trie α} {id : NodeId} {slot : Option α}

theorem get?_of_le (h : t.nodeCount ≤ id) : t.get? id = none := by
  simp only [nodeCount] at h
  simp [get?, Array.getElem?_eq_none h]

theorem lt_nodeCount_of_get? {x : α} (h : t.get? id = some x) : id < t.nodeCount := by
  by_contra hc
  rw [get?_of_le (Nat.le_of_not_lt hc)] at h
  cases h

@[simp] theorem get?_empty (id : NodeId) : (empty : Trie α).get? id = none := by
  cases id <;> simp [get?, empty]

@[simp] theorem nodeCount_empty : (empty : Trie α).nodeCount = 1 := rfl

/-! ## Swapping -/

@[simp] theorem swap_fst : (t.swap id slot).1 = t.get? id := by
  unfold swap
  split
  · rfl
  · next h => exact (get?_of_le (Nat.le_of_not_lt h)).symm

@[simp] theorem nodeCount_swap : (t.swap id slot).2.nodeCount = t.nodeCount := by
  unfold swap
  split
  · simp [nodeCount]
  · rfl

theorem swap_of_le (h : t.nodeCount ≤ id) : (t.swap id slot).2 = t := by
  rw [swap, if_neg (Nat.not_lt.2 h)]

theorem nodes_swap (h : id < t.nodeCount) (j : NodeId) :
    (t.swap id slot).2.nodes[j]? =
      if id = j then (t.nodes[j]?).map fun node => { node with slot } else t.nodes[j]? := by
  rw [swap, if_pos h]
  exact Array.getElem?_modify

/-- **A swap is seen at its own node only.** -/
theorem get?_swap (h : id < t.nodeCount) (j : NodeId) :
    (t.swap id slot).2.get? j = if id = j then slot else t.get? j := by
  unfold get?
  rw [nodes_swap h]
  split
  · next hj =>
    subst hj
    simp [Array.getElem?_eq_getElem h]
  · rfl

theorem get?_swap_self (h : id < t.nodeCount) : (t.swap id slot).2.get? id = slot := by
  rw [get?_swap h, if_pos rfl]

theorem get?_swap_ne {j : NodeId} (h : id ≠ j) : (t.swap id slot).2.get? j = t.get? j := by
  by_cases hid : id < t.nodeCount
  · rw [get?_swap hid, if_neg h]
  · rw [swap_of_le (Nat.le_of_not_lt hid)]

theorem live_swap (h : id < t.nodeCount) :
    (t.swap id slot).2.live = t.live + weight slot - weight (t.get? id) := by
  rw [swap, if_pos h]

/-- Putting back what is there changes nothing. -/
theorem swap_get? : (t.swap id (t.get? id)).2 = t := by
  by_cases hid : id < t.nodeCount
  · have hnodes : (t.swap id (t.get? id)).2.nodes = t.nodes := by
      refine Array.ext_getElem? fun j => ?_
      rw [nodes_swap hid]
      split
      · next hj =>
        subst hj
        simp [get?, Array.getElem?_eq_getElem hid]
      · rfl
    have hlive : (t.swap id (t.get? id)).2.live = t.live := by
      rw [live_swap hid]
      omega
    cases t
    simp only at hnodes hlive
    exact congr (congrArg mk hnodes) hlive
  · exact swap_of_le (Nat.le_of_not_lt hid)

/-! ## Occupants -/

/-- What the slots hold, in the order of the nodes. -/
def occupants (t : Trie α) : List α := (List.range t.nodeCount).filterMap t.get?

theorem occupants_congr {u : Trie α} (hc : t.nodeCount = u.nodeCount) (hg : t.get? = u.get?) :
    t.occupants = u.occupants := by
  rw [occupants, occupants, hc, hg]

@[simp] theorem occupants_empty : (empty : Trie α).occupants = [] := by
  simp [occupants]

theorem mem_occupants {x : α} : x ∈ t.occupants ↔ ∃ id, t.get? id = some x := by
  simp only [occupants, List.mem_filterMap, List.mem_range]
  exact ⟨fun ⟨id, _, h⟩ => ⟨id, h⟩, fun ⟨id, h⟩ => ⟨id, lt_nodeCount_of_get? h, h⟩⟩

/-- **A swap exchanges one occupant**, at the place of its node. -/
theorem exists_occupants_swap (h : id < t.nodeCount) (slot : Option α) :
    ∃ front back, t.occupants = front ++ (t.get? id).toList ++ back ∧
      (t.swap id slot).2.occupants = front ++ slot.toList ++ back := by
  obtain ⟨front, back, hrange⟩ := List.append_of_mem (List.mem_range.2 h)
  have hnodup : (front ++ id :: back).Nodup := hrange ▸ List.nodup_range
  have hout : id ∉ front ∧ id ∉ back := by
    rw [List.nodup_append] at hnodup
    exact ⟨fun hm => hnodup.2.2 id hm id (by simp) rfl, (List.nodup_cons.1 hnodup.2.1).1⟩
  have hsame : ∀ js : List NodeId, id ∉ js →
      js.filterMap (t.swap id slot).2.get? = js.filterMap t.get? := fun js hjs =>
    List.filterMap_congr fun j hj => get?_swap_ne fun e => hjs (e ▸ hj)
  refine ⟨front.filterMap t.get?, back.filterMap t.get?, ?_, ?_⟩
  · rw [occupants, hrange, List.filterMap_append, List.filterMap_cons]
    cases t.get? id <;> simp
  · rw [occupants, nodeCount_swap, hrange, List.filterMap_append, List.filterMap_cons,
      hsame front hout.1, hsame back hout.2, get?_swap_self h]
    cases slot <;> simp

/-- The count of occupied slots is right. -/
def Tallied (t : Trie α) : Prop := t.live = t.occupants.length

theorem tallied_empty : (empty : Trie α).Tallied := by
  rw [Tallied, occupants_empty]
  rfl

theorem Tallied.swap (h : t.Tallied) (id : NodeId) (slot : Option α) :
    (t.swap id slot).2.Tallied := by
  by_cases hid : id < t.nodeCount
  · obtain ⟨front, back, hold, hnew⟩ := exists_occupants_swap hid slot
    simp only [Tallied] at h ⊢
    rw [live_swap hid, h, hold, hnew]
    simp only [List.length_append]
    have hweight : ∀ o : Option α, weight o = o.toList.length := fun o => by cases o <;> rfl
    rw [hweight, hweight]
    omega
  · rwa [swap_of_le (Nat.le_of_not_lt hid)]

end Trie

end PrefixCache

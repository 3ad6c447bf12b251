import PrefixCache.Proofs.Trie.Shape
import Mathlib.Data.List.Induction
/-!
# Keys and nodes

In an arranged trie keys and nodes name each other: a key leads to at most
one node, no two keys lead to the same node (`findNode?_inj`), and to
every node leads a key (`exists_findNode?`). Both are inductions along
the tree, from the root down.
-/

namespace PrefixCache

namespace Trie

variable {α β : Type} {t : Trie α} {u : Trie β}

@[simp] theorem descend?_nil (t : Trie α) (id : NodeId) : t.descend? id [] = some id := rfl

theorem descend?_append (t : Trie α) (id : NodeId) (front back : Bytes) :
    t.descend? id (front ++ back) = (t.descend? id front).bind (t.descend? · back) := by
  induction front generalizing id with
  | nil => rfl
  | cons b rest ih =>
    simp only [List.cons_append, descend?]
    cases t.child? id b with
    | none => rfl
    | some next => exact ih next

theorem descend?_concat (t : Trie α) (id : NodeId) (key : Bytes) (b : UInt8) :
    t.descend? id (key ++ [b]) = (t.descend? id key).bind (t.child? · b) := by
  rw [descend?_append]
  congr 1
  funext next
  simp only [descend?]
  cases t.child? next b <;> rfl

/-- A step down a path, and the rest of it. -/
theorem descend?_cons_eq_some (ht : t.Arranged) {id next : NodeId} {b : UInt8} {key : Bytes} :
    t.descend? id (b :: key) = some next ↔
      ∃ c ∈ t.childrenOf id, t.labelOf c = b ∧ t.descend? c key = some next := by
  simp only [descend?]
  constructor
  · intro h
    cases hc : t.child? id b with
    | none =>
      rw [hc] at h
      cases h
    | some c =>
      rw [hc] at h
      obtain ⟨hmem, hl⟩ := (child?_eq_some ht).1 hc
      exact ⟨c, hmem, hl, h⟩
  · rintro ⟨c, hmem, hl, h⟩
    rw [(child?_eq_some ht).2 ⟨hmem, hl⟩]
    exact h

/-- A path, and the last step of it. -/
theorem descend?_concat_eq_some (ht : t.Arranged) {id next : NodeId} {b : UInt8} {key : Bytes} :
    t.descend? id (key ++ [b]) = some next ↔
      ∃ p, t.descend? id key = some p ∧ next ∈ t.childrenOf p ∧ t.labelOf next = b := by
  rw [descend?_concat, Option.bind_eq_some_iff]
  simp only [child?_eq_some ht]

theorem descend?_congr (ht : t.Arranged) (h : t.SameShape u) (id : NodeId) (key : Bytes) :
    t.descend? id key = u.descend? id key := by
  induction key generalizing id with
  | nil => rfl
  | cons b rest ih =>
    simp only [descend?, child?_congr ht h]
    cases u.child? id b with
    | none => rfl
    | some next => exact ih next

/-- Looking up a key reads the shape alone. -/
theorem findNode?_congr (ht : t.Arranged) (h : t.SameShape u) (key : Bytes) :
    t.findNode? key = u.findNode? key :=
  descend?_congr ht h root key

theorem findNode?_append (t : Trie α) (front back : Bytes) :
    t.findNode? (front ++ back) = (t.findNode? front).bind (t.descend? · back) :=
  descend?_append t root front back

/-- A path leads from a node to a node. -/
theorem Arranged.descend?_lt (ht : t.Arranged) {id next : NodeId} {key : Bytes}
    (hid : id < t.nodeCount) (h : t.descend? id key = some next) : next < t.nodeCount := by
  induction key generalizing id with
  | nil => exact Option.some.inj h ▸ hid
  | cons b rest ih =>
    obtain ⟨c, hc, -, hrest⟩ := (descend?_cons_eq_some ht).1 h
    exact ih (ht.child_lt hc) hrest

theorem Arranged.findNode?_lt (ht : t.Arranged) {id : NodeId} {key : Bytes}
    (h : t.findNode? key = some id) : id < t.nodeCount :=
  ht.descend?_lt ht.root_lt h

/-- **No two keys lead to one node.** Read from the end: the node has one
label and one parent, and the parent came before it. -/
theorem Arranged.findNode?_inj (ht : t.Arranged) {id : NodeId} {key key' : Bytes}
    (h : t.findNode? key = some id) (h' : t.findNode? key' = some id) : key = key' := by
  have hroot : ∀ {front : Bytes} {b : UInt8}, t.findNode? (front ++ [b]) ≠ some root := by
    intro front b hf
    obtain ⟨p, -, hmem, -⟩ := (descend?_concat_eq_some ht).1 hf
    exact absurd (ht.child_gt hmem) (Nat.not_lt_zero _)
  induction key using List.reverseRecOn generalizing id key' with
  | nil =>
    obtain rfl : root = id := Option.some.inj h
    cases key' using List.reverseRecOn with
    | nil => rfl
    | append_singleton front b => exact absurd h' hroot
  | append_singleton front b ih =>
    cases key' using List.reverseRecOn with
    | nil =>
      obtain rfl : root = id := Option.some.inj h'
      exact absurd h hroot
    | append_singleton front' b' =>
      obtain ⟨p, hp, hmem, hl⟩ := (descend?_concat_eq_some ht).1 h
      obtain ⟨p', hp', hmem', hl'⟩ := (descend?_concat_eq_some ht).1 h'
      obtain rfl := ht.parent_unique hmem hmem'
      rw [ih hp hp', ← hl, ← hl']

/-- **To every node leads a key.** -/
theorem Arranged.exists_findNode? (ht : t.Arranged) {id : NodeId} (h : id < t.nodeCount) :
    ∃ key, t.findNode? key = some id := by
  induction id using Nat.strongRecOn with
  | _ id ih =>
    by_cases hroot : id = root
    · exact ⟨[], hroot ▸ rfl⟩
    · obtain ⟨p, hp⟩ := ht.parent hroot h
      obtain ⟨key, hkey⟩ := ih p (ht.child_gt hp) (lt_nodeCount_of_mem_childrenOf hp)
      exact ⟨key ++ [t.labelOf id], (descend?_concat_eq_some ht).2 ⟨p, hkey, hp, rfl⟩⟩

theorem find?_eq_some {key : Bytes} {x : α} :
    t.find? key = some x ↔ ∃ id, t.findNode? key = some id ∧ t.get? id = some x := by
  simp [find?, Option.bind_eq_some_iff]

@[simp] theorem find?_empty (key : Bytes) : (empty : Trie α).find? key = none := by
  rw [find?]
  cases (empty : Trie α).findNode? key with
  | none => rfl
  | some id => exact get?_empty id

theorem find?_of_findNode? {key : Bytes} {id : NodeId} (h : t.findNode? key = some id) :
    t.find? key = t.get? id := by
  rw [find?, h, Option.bind_some]

/-- **A swap is seen under its own key only.** -/
theorem find?_swap (ht : t.Arranged) {key : Bytes} {id : NodeId} (h : t.findNode? key = some id)
    (slot : Option α) (key' : Bytes) :
    (t.swap id slot).2.find? key' = if key = key' then slot else t.find? key' := by
  have hshape := sameShape_swap t id slot
  rw [find?, findNode?_congr (ht.congr hshape.symm) hshape]
  split
  · next hk =>
    rw [← hk, h, Option.bind_some, get?_swap_self (ht.findNode?_lt h)]
  · next hk =>
    unfold find?
    cases h' : t.findNode? key' with
    | none => rfl
    | some id' => exact get?_swap_ne fun e => hk (ht.findNode?_inj h (e ▸ h'))

end Trie

end PrefixCache

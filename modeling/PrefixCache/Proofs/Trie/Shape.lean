import PrefixCache.Proofs.Trie.Slots
/-!
# The shape of a trie

The shape is what is left of a trie without its slots and without what
its nodes remember: how many nodes there are, their children and their
labels. `Arranged` says that the shape is a tree with distinct labels
among siblings, where every child came after its parent. In an arranged
trie lookup finds the one child with a label, whatever is remembered
(`child?_eq_some`), so it depends on the shape alone (`child?_congr`).
Swapping keeps the shape, and adding a child keeps it arranged.
-/

namespace PrefixCache

namespace Trie

variable {α β : Type} {t : Trie α} {u : Trie β}

/-- The children of a node, none where there is no node. -/
def childrenOf (t : Trie α) (id : NodeId) : List NodeId :=
  match t.nodes[id]? with
  | some node => node.children
  | none => []

/-- The label of the edge to a node. -/
def labelOf (t : Trie α) (id : NodeId) : UInt8 :=
  match t.nodes[id]? with
  | some node => node.label
  | none => 0

/-- Two tries have the same nodes, slots and what is remembered apart. -/
structure SameShape (t : Trie α) (u : Trie β) : Prop where
  count : t.nodeCount = u.nodeCount
  children : t.childrenOf = u.childrenOf
  labels : t.labelOf = u.labelOf

namespace SameShape

theorem refl (t : Trie α) : t.SameShape t := ⟨rfl, rfl, rfl⟩

theorem symm (h : t.SameShape u) : u.SameShape t := ⟨h.1.symm, h.2.symm, h.3.symm⟩

theorem trans {γ : Type} {v : Trie γ} (h : t.SameShape u) (h' : u.SameShape v) : t.SameShape v :=
  ⟨h.1.trans h'.1, h.2.trans h'.2, h.3.trans h'.3⟩

end SameShape

/-- The nodes form a tree: children come after their parents, siblings
have different labels, and every node but the root is the child of one
node. -/
structure Arranged (t : Trie α) : Prop where
  root_lt : root < t.nodeCount
  child_gt {p c : NodeId} : c ∈ t.childrenOf p → p < c
  child_lt {p c : NodeId} : c ∈ t.childrenOf p → c < t.nodeCount
  labels (p : NodeId) : ((t.childrenOf p).map t.labelOf).Nodup
  parent {c : NodeId} : c ≠ root → c < t.nodeCount → ∃ p, c ∈ t.childrenOf p
  parent_unique {p q c : NodeId} : c ∈ t.childrenOf p → c ∈ t.childrenOf q → p = q

theorem Arranged.congr (ht : t.Arranged) (h : t.SameShape u) : u.Arranged := by
  obtain ⟨hcount, hchildren, hlabels⟩ := h
  exact {
    root_lt := hcount ▸ ht.root_lt
    child_gt := fun {p c} => hchildren ▸ ht.child_gt
    child_lt := fun {p c} => hchildren ▸ hcount ▸ ht.child_lt
    labels := fun p => hchildren ▸ hlabels ▸ ht.labels p
    parent := fun {c} => hchildren ▸ hcount ▸ ht.parent
    parent_unique := fun {p q c} => hchildren ▸ ht.parent_unique }

theorem arranged_empty : (empty : Trie α).Arranged := by
  have hnone : ∀ p, (empty : Trie α).childrenOf p = [] := fun p => by
    cases p <;> simp [childrenOf, empty]
  refine ⟨Nat.zero_lt_one, ?_, ?_, ?_, ?_, ?_⟩
  · intro p c hc
    simp [hnone] at hc
  · intro p c hc
    simp [hnone] at hc
  · intro p
    simp [hnone]
  · intro c hc hlt
    exact absurd (Nat.lt_one_iff.1 hlt) hc
  · intro p q c hc
    simp [hnone] at hc

theorem lt_nodeCount_of_mem_childrenOf {p c : NodeId} (h : c ∈ t.childrenOf p) :
    p < t.nodeCount := by
  by_contra hp
  have : t.nodes[p]? = none := Array.getElem?_eq_none (Nat.le_of_not_lt hp)
  simp [childrenOf, this] at h

/-- Siblings with one label are one. -/
theorem Arranged.eq_of_label (ht : t.Arranged) {p c c' : NodeId} (hc : c ∈ t.childrenOf p)
    (hc' : c' ∈ t.childrenOf p) (hl : t.labelOf c = t.labelOf c') : c = c' :=
  List.inj_on_of_nodup_map (ht.labels p) hc hc' hl

/-! ## Looking up a child -/

theorem hasLabel_iff {b : UInt8} {id : NodeId} (h : id < t.nodeCount) :
    t.hasLabel b id = true ↔ t.labelOf id = b := by
  simp [hasLabel, labelOf, Array.getElem?_eq_getElem h]

/-- **Lookup finds the child with a label**, and nothing else, whatever
is remembered. -/
theorem child?_eq_some (ht : t.Arranged) {p c : NodeId} {b : UInt8} :
    t.child? p b = some c ↔ c ∈ t.childrenOf p ∧ t.labelOf c = b := by
  cases hp : t.nodes[p]? with
  | none => simp [child?, childrenOf, hp]
  | some node =>
    have hch : t.childrenOf p = node.children := by simp [childrenOf, hp]
    have hlabel : ∀ {x}, x ∈ node.children → (t.hasLabel b x = true ↔ t.labelOf x = b) :=
      fun hx => hasLabel_iff (ht.child_lt (hch ▸ hx))
    have hone : ∀ {x y}, x ∈ node.children → t.labelOf x = b → y ∈ node.children →
        t.labelOf y = b → x = y := fun hx hlx hy hly =>
      ht.eq_of_label (hch ▸ hx) (hch ▸ hy) (hlx.trans hly.symm)
    simp only [child?, hp, hch]
    -- the remembered child counts only when it has the label, so both ways agree
    cases hr : (node.children[node.remembered]?).filter (t.hasLabel b) with
    | some x =>
      obtain ⟨hx, hlx⟩ := Option.filter_eq_some_iff.1 hr
      have hx := List.mem_of_getElem? hx
      have hlx := (hlabel hx).1 hlx
      simp only [Option.some.injEq]
      exact ⟨fun e => e ▸ ⟨hx, hlx⟩, fun ⟨hc, hl⟩ => hone hx hlx hc hl⟩
    | none =>
      constructor
      · intro hf
        have hc := List.mem_of_find?_eq_some hf
        exact ⟨hc, (hlabel hc).1 (List.find?_some hf)⟩
      · rintro ⟨hc, hl⟩
        cases hf : node.children.find? (t.hasLabel b) with
        | none => exact absurd ((hlabel hc).2 hl) (List.find?_eq_none.1 hf c hc)
        | some y =>
          have hy := List.mem_of_find?_eq_some hf
          rw [hone hy ((hlabel hy).1 (List.find?_some hf)) hc hl]

/-- Lookup reads the shape alone. -/
theorem child?_congr (ht : t.Arranged) (h : t.SameShape u) (p : NodeId) (b : UInt8) :
    t.child? p b = u.child? p b := by
  ext c
  rw [child?_eq_some ht, child?_eq_some (ht.congr h), h.children, h.labels]

/-! ## Swapping -/

theorem sameShape_swap (t : Trie α) (id : NodeId) (slot : Option α) :
    (t.swap id slot).2.SameShape t := by
  by_cases hid : id < t.nodeCount
  · refine ⟨nodeCount_swap, funext fun j => ?_, funext fun j => ?_⟩
    · simp only [childrenOf, nodes_swap hid]
      by_cases hj : id = j <;> cases t.nodes[j]? <;> simp only [hj, if_true, if_false,
        Option.map_none, Option.map_some]
    · simp only [labelOf, nodes_swap hid]
      by_cases hj : id = j <;> cases t.nodes[j]? <;> simp only [hj, if_true, if_false,
        Option.map_none, Option.map_some]
  · rw [swap_of_le (Nat.le_of_not_lt hid)]
    exact .refl t

theorem Arranged.swap (ht : t.Arranged) (id : NodeId) (slot : Option α) :
    (t.swap id slot).2.Arranged :=
  ht.congr (sameShape_swap t id slot).symm

end Trie

end PrefixCache

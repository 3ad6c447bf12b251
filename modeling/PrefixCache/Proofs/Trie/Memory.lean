import PrefixCache.Proofs.Trie.Path
/-!
# What nodes remember

A lookup that goes along a path notes at every node where it found the
child (`seek`), and the next lookup looks there first. The notes are
outside the content of a trie: `SameContent` says that two tries have the
same nodes and hold the same, whatever they remember. A lookup that notes
its way finds what a lookup finds that does not (`seek_fst`), and leaves
the content alone (`sameContent_seek`). Nor does it matter what the notes
say: any position may stand there, past the last child too
(`seekChild_remembering`).
-/

namespace PrefixCache

namespace Trie

variable {α : Type} {t u v : Trie α}

/-- Two tries differ at most in what their nodes remember. -/
structure SameContent (t u : Trie α) : Prop where
  shape : t.SameShape u
  slots : u.get? = t.get?
  live : u.live = t.live

namespace SameContent

theorem refl (t : Trie α) : t.SameContent t := ⟨.refl t, rfl, rfl⟩

theorem trans (h : t.SameContent u) (h' : u.SameContent v) : t.SameContent v :=
  ⟨h.shape.trans h'.shape, h'.slots.trans h.slots, h'.live.trans h.live⟩

/-- A trie whose nodes agree with those of another, but for what they
remember, has the same content. -/
theorem of_nodes (hlive : u.live = t.live) (hsize : u.nodeCount = t.nodeCount)
    (hnodes : ∀ id : NodeId, ∃ memory : Nat, u.nodes[id]? =
      t.nodes[id]?.map fun node : Node α => { node with remembered := memory }) :
    t.SameContent u := by
  refine ⟨⟨hsize.symm, ?_, ?_⟩, ?_, hlive⟩ <;> funext id <;> obtain ⟨memory, hid⟩ := hnodes id
  · simp only [childrenOf, hid]
    cases t.nodes[id]? <;> rfl
  · simp only [labelOf, hid]
    cases t.nodes[id]? <;> rfl
  · simp only [get?, hid]
    cases t.nodes[id]? <;> rfl

end SameContent

theorem sameContent_remember (t : Trie α) (id : NodeId) (position : Nat) :
    t.SameContent (t.remember id position) := by
  refine .of_nodes rfl (by simp [remember, nodeCount]) fun j => ?_
  by_cases hj : id = j
  · exact ⟨position, by simp [remember, Array.getElem?_modify, hj]⟩
  · -- every other node remembers what it did
    refine ⟨(t.nodes[j]?.map Node.remembered).getD 0, ?_⟩
    simp only [remember, Array.getElem?_modify, if_neg hj]
    cases t.nodes[j]? <;> rfl

/-- The trie, with any position remembered at every node. -/
def remembering (t : Trie α) (memory : NodeId → Nat) : Trie α :=
  { t with nodes := t.nodes.mapIdx fun id node => { node with remembered := memory id } }

theorem sameContent_remembering (t : Trie α) (memory : NodeId → Nat) :
    t.SameContent (t.remembering memory) :=
  .of_nodes rfl (by simp [remembering, nodeCount]) fun id =>
    ⟨memory id, by simp [remembering, Array.getElem?_mapIdx]⟩

/-! ## Looking up and noting where -/

/-- Looks for the child of a node under a label: at the position the node
remembers, and else among all of them, in which case the node remembers
where the child was. -/
def seekChild (t : Trie α) (parent : NodeId) (b : UInt8) : Option NodeId × Trie α :=
  match t.nodes[parent]? with
  | none => (none, t)
  | some node =>
    match (node.children[node.remembered]?).filter (t.hasLabel b) with
    | some id => (some id, t)
    | none =>
      match node.children.findIdx? (t.hasLabel b) with
      | some position => (node.children[position]?, t.remember parent position)
      | none => (none, t)

/-- Looks for the node reached from `id` along a byte string. -/
def seek (t : Trie α) (id : NodeId) : Bytes → Option NodeId × Trie α
  | [] => (some id, t)
  | b :: rest =>
    match t.seekChild id b with
    | (some next, t) => t.seek next rest
    | (none, t) => (none, t)

theorem seekChild_fst (t : Trie α) (p : NodeId) (b : UInt8) :
    (t.seekChild p b).1 = t.child? p b := by
  unfold seekChild child?
  cases t.nodes[p]? with
  | none => rfl
  | some node =>
    simp only
    cases (node.children[node.remembered]?).filter (t.hasLabel b) with
    | some id => rfl
    | none =>
      -- the child at the first matching position is the first matching child
      rw [List.find?_eq_bind_findIdx?_getElem?]
      cases node.children.findIdx? (t.hasLabel b) <;> rfl

theorem sameContent_seekChild (t : Trie α) (p : NodeId) (b : UInt8) :
    t.SameContent (t.seekChild p b).2 := by
  unfold seekChild
  cases t.nodes[p]? with
  | none => exact .refl t
  | some node =>
    simp only
    cases (node.children[node.remembered]?).filter (t.hasLabel b) with
    | some id => exact .refl t
    | none =>
      simp only
      cases node.children.findIdx? (t.hasLabel b) with
      | some position => exact sameContent_remember t p position
      | none => exact .refl t

theorem sameContent_seek (t : Trie α) (id : NodeId) (key : Bytes) :
    t.SameContent (t.seek id key).2 := by
  induction key generalizing t id with
  | nil => exact .refl t
  | cons b rest ih =>
    have hchild := sameContent_seekChild t id b
    rw [seek]
    generalize t.seekChild id b = r at hchild
    obtain ⟨_ | next, u⟩ := r
    · exact hchild
    · exact hchild.trans (ih u next)

/-- **Noting the way does not change where it leads.** -/
theorem seek_fst (ht : t.Arranged) (id : NodeId) (key : Bytes) :
    (t.seek id key).1 = t.descend? id key := by
  induction key generalizing t id with
  | nil => rfl
  | cons b rest ih =>
    have hchild := sameContent_seekChild t id b
    rw [seek, descend?, ← seekChild_fst]
    generalize t.seekChild id b = r at hchild
    obtain ⟨_ | next, u⟩ := r
    · rfl
    · exact (ih (ht.congr hchild.shape) next).trans (descend?_congr ht hchild.shape next rest).symm

/-- **Whatever is remembered, the child with the label is found**, and
nothing is found where no child has it. -/
theorem seekChild_remembering (ht : t.Arranged) (memory : NodeId → Nat) {p c : NodeId}
    {b : UInt8} : ((t.remembering memory).seekChild p b).1 = some c ↔
      c ∈ t.childrenOf p ∧ t.labelOf c = b := by
  have hsame := (sameContent_remembering t memory).shape
  rw [seekChild_fst, ← child?_congr ht hsame, child?_eq_some ht]

end Trie

end PrefixCache

import PrefixCache.Proofs.Trie.Path
/-!
# Growth of a trie

Storing under a new key adds the missing nodes of its path. `Grows` says
what that leaves alone: slots, the count of them, and every path there
was; so a node, once a key leads to it, stays the node of that key
(`Grows.findNode?`). Storing is then a growth and a swap at the end of
the path (`exists_insert`), which is seen under that key only
(`find?_insert`).
-/

namespace PrefixCache

namespace Trie

variable {α β : Type} {t u v : Trie α}

/-- `u` is `t` with more nodes, and nothing else. -/
structure Grows (t u : Trie α) : Prop where
  arranged : u.Arranged
  slots : u.get? = t.get?
  live : u.live = t.live
  count : t.nodeCount ≤ u.nodeCount
  child {p c : NodeId} {b : UInt8} : t.child? p b = some c → u.child? p b = some c

namespace Grows

theorem refl (ht : t.Arranged) : t.Grows t := ⟨ht, rfl, rfl, Nat.le_refl _, id⟩

theorem trans (h : t.Grows u) (h' : u.Grows v) : t.Grows v :=
  ⟨h'.arranged, h'.slots.trans h.slots, h'.live.trans h.live, Nat.le_trans h.count h'.count,
    fun hc => h'.child (h.child hc)⟩

/-- Paths stay. -/
theorem descend? (h : t.Grows u) {id next : NodeId} {key : Bytes}
    (hd : t.descend? id key = some next) : u.descend? id key = some next := by
  induction key generalizing id with
  | nil => exact hd
  | cons b rest ih =>
    simp only [Trie.descend?] at hd ⊢
    cases hc : t.child? id b with
    | none =>
      rw [hc] at hd
      cases hd
    | some c =>
      rw [hc] at hd
      rw [h.child hc]
      exact ih hd

/-- **A node stays the node of its key.** -/
theorem findNode? (h : t.Grows u) {key : Bytes} {id : NodeId} (hf : t.findNode? key = some id) :
    u.findNode? key = some id :=
  h.descend? hf

/-- What is stored stays, under every key. -/
theorem find? (h : t.Grows u) (ht : t.Arranged) (key : Bytes) : u.find? key = t.find? key := by
  cases hf : t.findNode? key with
  | some id => rw [find?_of_findNode? hf, find?_of_findNode? (h.findNode? hf), h.slots]
  | none =>
    rw [show t.find? key = none by rw [Trie.find?, hf, Option.bind_none]]
    cases hu : u.findNode? key with
    | none => rw [Trie.find?, hu, Option.bind_none]
    | some id =>
      -- an old node is already the node of some key, which would be this one
      have hnew : t.nodeCount ≤ id := by
        by_contra hold
        obtain ⟨key', hk'⟩ := ht.exists_findNode? (Nat.lt_of_not_le hold)
        rw [h.arranged.findNode?_inj hu (h.findNode? hk'), hk'] at hf
        cases hf
      rw [find?_of_findNode? hu, h.slots, get?_of_le hnew]

theorem occupants (h : t.Grows u) : u.occupants = t.occupants := by
  have hmore : ∀ n, (List.range (t.nodeCount + n)).filterMap t.get? = t.occupants := by
    intro n
    induction n with
    | zero => rfl
    | succ n ih =>
      rw [← Nat.add_assoc, List.range_succ, List.filterMap_append, ih]
      simp [get?_of_le (Nat.le_add_right t.nodeCount n)]
  obtain ⟨n, hn⟩ := Nat.exists_eq_add_of_le h.count
  rw [Trie.occupants, hn, h.slots, hmore]

theorem tallied (h : t.Grows u) (ht : t.Tallied) : u.Tallied := by
  rw [Tallied, h.live, h.occupants]
  exact ht

end Grows

/-! ## Adding a child -/

section AddChild

variable {p : NodeId} {b : UInt8}

@[simp] theorem nodeCount_addChild (t : Trie α) (p : NodeId) (b : UInt8) :
    (t.addChild p b).1.nodeCount = t.nodeCount + 1 := by
  simp [addChild, nodeCount]

theorem nodes_addChild (t : Trie α) (p : NodeId) (b : UInt8) (j : NodeId) :
    (t.addChild p b).1.nodes[j]? =
      let node? := if j = t.nodeCount then some { label := b } else t.nodes[j]?
      if p = j then node?.map fun node =>
        { node with children := node.children ++ [t.nodeCount], remembered := node.children.length }
      else node? := by
  simp only [addChild, Array.getElem?_modify, Array.getElem?_push, nodeCount]
  rfl

@[simp] theorem get?_addChild (t : Trie α) (p : NodeId) (b : UInt8) :
    (t.addChild p b).1.get? = t.get? := by
  funext j
  simp only [get?, nodes_addChild]
  have hnone : t.nodes[t.nodeCount]? = none := Array.getElem?_eq_none (Nat.le_refl _)
  by_cases hj : j = t.nodeCount
  · subst hj
    by_cases hp : p = t.nodeCount <;> simp [hp, hnone]
  · by_cases hp : p = j <;> cases t.nodes[j]? <;> simp [hj, hp]

theorem childrenOf_addChild (hp : p < t.nodeCount) (j : NodeId) :
    (t.addChild p b).1.childrenOf j =
      if p = j then t.childrenOf j ++ [t.nodeCount] else t.childrenOf j := by
  have hnone : t.nodes[t.nodeCount]? = none := Array.getElem?_eq_none (Nat.le_refl _)
  simp only [childrenOf, nodes_addChild]
  by_cases hj : j = t.nodeCount
  · have hpj : p ≠ j := fun e => Nat.lt_irrefl _ (hj ▸ e ▸ hp)
    subst hj
    simp [hpj, hnone]
  · by_cases hpj : p = j
    · subst hpj
      simp [hj, Array.getElem?_eq_getElem hp]
    · simp [hj, hpj]

theorem labelOf_addChild (t : Trie α) (p : NodeId) (b : UInt8) (j : NodeId) :
    (t.addChild p b).1.labelOf j = if j = t.nodeCount then b else t.labelOf j := by
  simp only [labelOf, nodes_addChild]
  by_cases hj : j = t.nodeCount
  · subst hj
    by_cases hp : p = t.nodeCount <;> simp [hp]
  · by_cases hp : p = j <;> cases t.nodes[j]? <;> simp [hj, hp]

theorem Arranged.addChild (ht : t.Arranged) (hp : p < t.nodeCount) (hb : t.child? p b = none) :
    (t.addChild p b).1.Arranged := by
  -- a child is an old one, or the new one at its parent
  have hmem : ∀ {q c}, c ∈ (t.addChild p b).1.childrenOf q →
      c ∈ t.childrenOf q ∨ (p = q ∧ c = t.nodeCount) := by
    intro q c hc
    rw [childrenOf_addChild hp] at hc
    split at hc
    · next hq =>
      rcases List.mem_append.1 hc with hold | hnew
      · exact .inl hold
      · exact .inr ⟨hq, List.mem_singleton.1 hnew⟩
    · exact .inl hc
  have hfresh : ∀ {q}, t.nodeCount ∉ t.childrenOf q := fun hc => Nat.lt_irrefl _ (ht.child_lt hc)
  have hold : ∀ q, (t.childrenOf q).map (t.addChild p b).1.labelOf =
      (t.childrenOf q).map t.labelOf := fun q =>
    List.map_congr_left fun c hc => by
      rw [labelOf_addChild, if_neg (Nat.ne_of_lt (ht.child_lt hc))]
  refine ⟨?_, ?_, ?_, ?_, ?_, ?_⟩
  · exact Nat.lt_of_lt_of_le ht.root_lt (by simp)
  · intro q c hc
    rcases hmem hc with h | ⟨rfl, rfl⟩
    · exact ht.child_gt h
    · exact hp
  · intro q c hc
    rw [nodeCount_addChild]
    rcases hmem hc with h | ⟨rfl, rfl⟩
    · exact Nat.lt_succ_of_lt (ht.child_lt h)
    · exact Nat.lt_succ_self _
  · intro q
    rw [childrenOf_addChild hp]
    split
    · next hq =>
      subst hq
      rw [List.map_append, hold, List.map_singleton, labelOf_addChild, if_pos rfl]
      refine List.nodup_append.2 ⟨ht.labels p, List.nodup_singleton b, ?_⟩
      rintro l hl l' hl' rfl
      obtain ⟨c, hc, hcl⟩ := List.mem_map.1 hl
      rw [(child?_eq_some ht).2 ⟨hc, hcl.trans (List.mem_singleton.1 hl')⟩] at hb
      cases hb
    · exact hold q ▸ ht.labels q
  · intro c hc hlt
    rw [nodeCount_addChild] at hlt
    by_cases hnew : c = t.nodeCount
    · exact ⟨p, by simp [childrenOf_addChild hp, hnew]⟩
    · obtain ⟨q, hq⟩ := ht.parent hc (Nat.lt_of_le_of_ne (Nat.le_of_lt_succ hlt) hnew)
      refine ⟨q, ?_⟩
      rw [childrenOf_addChild hp]
      split
      · exact List.mem_append_left _ hq
      · exact hq
  · intro q q' c hc hc'
    rcases hmem hc with h | ⟨rfl, rfl⟩ <;> rcases hmem hc' with h' | ⟨rfl, e⟩
    · exact ht.parent_unique h h'
    · exact absurd (e ▸ h) hfresh
    · exact absurd h' hfresh
    · rfl

theorem grows_addChild (ht : t.Arranged) (hp : p < t.nodeCount) (hb : t.child? p b = none) :
    t.Grows (t.addChild p b).1 where
  arranged := ht.addChild hp hb
  slots := get?_addChild t p b
  live := rfl
  count := by simp
  child := by
    intro q c l hc
    obtain ⟨hmem, hl⟩ := (child?_eq_some ht).1 hc
    refine (child?_eq_some (ht.addChild hp hb)).2 ⟨?_, ?_⟩
    · rw [childrenOf_addChild hp]
      split
      · exact List.mem_append_left _ hmem
      · exact hmem
    · rw [labelOf_addChild, if_neg (Nat.ne_of_lt (ht.child_lt hmem)), hl]

theorem sameShape_addChild {w : Trie β} (h : t.SameShape w) (hp : p < t.nodeCount) :
    (t.addChild p b).1.SameShape (w.addChild p b).1 := by
  refine ⟨by simp [h.count], funext fun j => ?_, funext fun j => ?_⟩
  · rw [childrenOf_addChild hp, childrenOf_addChild (h.count ▸ hp), h.children, h.count]
  · rw [labelOf_addChild, labelOf_addChild, h.labels, h.count]

end AddChild

/-! ## Reaching the end of a path -/

/-- **Reaching grows the trie** until the path is there. -/
theorem grows_reach (ht : t.Arranged) {id : NodeId} (hid : id < t.nodeCount) (key : Bytes) :
    t.Grows (t.reach id key).1 ∧ (t.reach id key).1.descend? id key = some (t.reach id key).2 := by
  induction key generalizing t id with
  | nil => exact ⟨.refl ht, rfl⟩
  | cons b rest ih =>
    simp only [reach]
    cases hc : t.child? id b with
    | some next =>
      have hnext := ht.child_lt ((child?_eq_some ht).1 hc).1
      obtain ⟨hgrows, hend⟩ := ih ht hnext
      refine ⟨hgrows, ?_⟩
      simp only [descend?, hgrows.child hc]
      exact hend
    | none =>
      have hadd := grows_addChild ht hid hc
      have hlast : t.nodeCount < (t.addChild id b).1.nodeCount := by simp
      obtain ⟨hgrows, hend⟩ := ih hadd.arranged hlast
      refine ⟨hadd.trans hgrows, ?_⟩
      have hnew : (t.addChild id b).1.child? id b = some t.nodeCount := by
        refine (child?_eq_some hadd.arranged).2 ⟨?_, ?_⟩
        · simp [childrenOf_addChild hid]
        · rw [labelOf_addChild, if_pos rfl]
      simp only [descend?]
      rw [show (t.addChild id b).2 = t.nodeCount from rfl, hgrows.child hnew]
      exact hend

/-- A path that is there is only walked. -/
theorem reach_of_descend? {id next : NodeId} {key : Bytes} (h : t.descend? id key = some next) :
    t.reach id key = (t, next) := by
  induction key generalizing id with
  | nil => rw [reach, Option.some.inj h]
  | cons b rest ih =>
    simp only [descend?] at h
    simp only [reach]
    cases hc : t.child? id b with
    | none =>
      rw [hc] at h
      cases h
    | some c =>
      rw [hc] at h
      exact ih h

theorem sameShape_reach {w : Trie β} (ht : t.Arranged) (h : t.SameShape w) {id : NodeId}
    (hid : id < t.nodeCount) (key : Bytes) :
    (t.reach id key).1.SameShape (w.reach id key).1 ∧ (t.reach id key).2 = (w.reach id key).2 := by
  induction key generalizing t w id with
  | nil => exact ⟨h, rfl⟩
  | cons b rest ih =>
    simp only [reach, ← child?_congr ht h]
    cases hc : t.child? id b with
    | some next => exact ih ht h (ht.child_lt ((child?_eq_some ht).1 hc).1)
    | none =>
      have hw : (w.addChild id b).2 = (t.addChild id b).2 := h.count.symm
      simp only [hw]
      exact ih (ht.addChild hid hc) (sameShape_addChild h hid) (by simp [addChild, nodeCount])

/-! ## Storing -/

/-- **Storing is a growth and a swap** at the node of the key. -/
theorem exists_insert (ht : t.Arranged) (key : Bytes) (x : α) :
    ∃ u id, t.Grows u ∧ u.findNode? key = some id ∧
      t.insert key x = (t.get? id, (u.swap id (some x)).2) := by
  obtain ⟨hgrows, hend⟩ := grows_reach ht ht.root_lt key
  refine ⟨_, _, hgrows, hend, ?_⟩
  rw [← hgrows.slots]
  exact Prod.ext swap_fst rfl

/-- Where the path is there, storing is a swap. -/
theorem insert_of_findNode? {key : Bytes} {id : NodeId} (h : t.findNode? key = some id) (x : α) :
    t.insert key x = t.swap id (some x) := by
  rw [insert, show t.reach root key = (t, id) from reach_of_descend? h]

theorem Arranged.insert (ht : t.Arranged) (key : Bytes) (x : α) : (t.insert key x).2.Arranged := by
  obtain ⟨u, id, hgrows, -, heq⟩ := exists_insert ht key x
  rw [heq]
  exact hgrows.arranged.swap id (some x)

/-- **What is stored is seen under its key only.** -/
theorem find?_insert (ht : t.Arranged) (key : Bytes) (x : α) (key' : Bytes) :
    (t.insert key x).2.find? key' = if key = key' then some x else t.find? key' := by
  obtain ⟨u, id, hgrows, hf, heq⟩ := exists_insert ht key x
  rw [heq]
  simp only
  rw [find?_swap hgrows.arranged hf, hgrows.find? ht]

/-- What is stored is seen at the end of its path only. -/
theorem get?_insert (ht : t.Arranged) (key : Bytes) (x : α) (j : NodeId) :
    (t.insert key x).2.get? j = if (t.reach root key).2 = j then some x else t.get? j := by
  obtain ⟨hgrows, hend⟩ := grows_reach ht ht.root_lt key
  rw [← hgrows.slots]
  exact get?_swap (hgrows.arranged.findNode?_lt hend) j

theorem sameShape_insert {w : Trie β} (ht : t.Arranged) (h : t.SameShape w) (key : Bytes) (x : α)
    (y : β) : (t.insert key x).2.SameShape (w.insert key y).2 := by
  obtain ⟨hshape, -⟩ := sameShape_reach ht h ht.root_lt key
  exact ((sameShape_swap _ _ _).trans hshape).trans (sameShape_swap _ _ _).symm

end Trie

end PrefixCache

import PrefixCache.Trie.Walk
import PrefixCache.Proofs.Trie.Path
import Mathlib.Data.List.Perm.Subperm
/-!
# The order of a walk

The walk keeps a list of steps ahead and a bound on its length. `below` is
the same order as a recursion over the tree, a node before its children,
and the bound is large enough (`subtree_eq`). So a walk meets every node
at or below its start (`mem_subtree`), each once (`nodup_subtree`), and
searching below a stem finds the keys with that stem that hold something,
each once and with its node (`mem_searchNodes`, `nodup_searchNodes`).
-/

namespace PrefixCache

namespace Trie

variable {α β : Type} {t : Trie α} {u : Trie β}

/-! ## The order as a recursion -/

/-- The steps from a node to its children. -/
def childSteps (t : Trie α) (step : Step) : List Step :=
  (t.childrenOf step.id).map fun id => { id, trail := t.labelOf id :: step.trail }

/-- A step and all that lie below it, down to a depth. -/
def preorder (t : Trie α) : (depth : Nat) → Step → List Step
  | 0, _ => []
  | depth + 1, step => step :: (t.childSteps step).flatMap (t.preorder depth)

/-- A step and all that lie below it. Children come later in the arena, so
there are no more levels than nodes from here on. -/
def below (t : Trie α) (step : Step) : List Step := t.preorder (t.nodeCount - step.id) step

/-- Fewer nodes come after a child than after its parent. -/
theorem Arranged.childSteps_bounds (ht : t.Arranged) {step next : Step}
    (h : next ∈ t.childSteps step) :
    next.id < t.nodeCount ∧ t.nodeCount - next.id < t.nodeCount - step.id := by
  obtain ⟨c, hc, rfl⟩ := List.mem_map.1 h
  exact ⟨ht.child_lt hc, Nat.sub_lt_sub_left (lt_nodeCount_of_mem_childrenOf hc) (ht.child_gt hc)⟩

theorem preorder_eq_below (ht : t.Arranged) {depth : Nat} {step : Step}
    (hid : step.id < t.nodeCount) (hd : t.nodeCount - step.id ≤ depth) :
    t.preorder depth step = t.below step := by
  have hsucc : ∀ (d : Nat) (s : Step), s.id < t.nodeCount → t.nodeCount - s.id ≤ d →
      t.preorder (d + 1) s = t.preorder d s := by
    intro d
    induction d with
    | zero =>
      intro s hs hle
      exact absurd hs (Nat.not_lt.2 (Nat.sub_eq_zero_iff_le.1 (Nat.le_zero.1 hle)))
    | succ d ih =>
      intro s hs hle
      rw [preorder, preorder]
      refine congrArg _ (List.flatMap_congr fun next hnext => ?_)
      obtain ⟨hlt, hless⟩ := ht.childSteps_bounds hnext
      exact ih next hlt (Nat.le_of_lt_succ (Nat.lt_of_lt_of_le hless hle))
  induction hd with
  | refl => rfl
  | step hle ih => rw [hsucc _ step hid hle, ih]

/-- A node comes first, then what lies below its children, child by child. -/
theorem below_eq (ht : t.Arranged) {step : Step} (h : step.id < t.nodeCount) :
    t.below step = step :: (t.childSteps step).flatMap t.below := by
  obtain ⟨d, hd⟩ := Nat.exists_eq_succ_of_ne_zero (Nat.sub_ne_zero_of_lt h)
  rw [below, hd, preorder]
  refine congrArg _ (List.flatMap_congr fun next hnext => ?_)
  obtain ⟨hlt, hless⟩ := ht.childSteps_bounds hnext
  exact preorder_eq_below ht hlt (Nat.le_of_lt_succ (hd ▸ hless))

theorem below_congr (h : t.SameShape u) : t.below = u.below := by
  have hsteps : t.childSteps = u.childSteps := by
    funext step
    simp only [childSteps, h.children, h.labels]
  have hpre : t.preorder = u.preorder := by
    funext depth
    induction depth with
    | zero => rfl
    | succ d ih =>
      funext step
      simp only [preorder, hsteps, ih]
  funext step
  simp only [below, hpre, h.count]

/-- Induction up the tree: what holds of a node as soon as it holds of its
children holds of every node. -/
@[elab_as_elim]
theorem Arranged.upward (ht : t.Arranged) {motive : NodeId → Prop}
    (step : ∀ id, id < t.nodeCount → (∀ c ∈ t.childrenOf id, motive c) → motive id) {id : NodeId}
    (h : id < t.nodeCount) : motive id := by
  generalize hn : t.nodeCount - id = n
  induction n using Nat.strongRecOn generalizing id with
  | _ n ih =>
    refine step id h fun c hc => ?_
    have hgt := ht.child_gt hc
    have hlt := ht.child_lt hc
    exact ih (t.nodeCount - c) (hn ▸ Nat.sub_lt_sub_left h hgt) hlt rfl

/-! ## What lies below -/

/-- **What lies below a node is what paths from it lead to**, with the
labels of the path as trail. -/
theorem mem_below (ht : t.Arranged) {id : NodeId} (h : id < t.nodeCount) (trail : Bytes)
    (x : Step) : x ∈ t.below ⟨id, trail⟩ ↔
      ∃ key, t.descend? id key = some x.id ∧ x.trail = key.reverse ++ trail := by
  revert trail x
  refine ht.upward (fun id hid ih => ?_) h
  intro trail x
  rw [below_eq ht hid, List.mem_cons, List.mem_flatMap]
  constructor
  · rintro (rfl | ⟨next, hnext, hx⟩)
    · exact ⟨[], rfl, rfl⟩
    · obtain ⟨c, hc, rfl⟩ := List.mem_map.1 hnext
      obtain ⟨key, hkey, htrail⟩ := (ih c hc _ _).1 hx
      refine ⟨t.labelOf c :: key, (descend?_cons_eq_some ht).2 ⟨c, hc, rfl, hkey⟩, ?_⟩
      simp [htrail]
  · rintro ⟨key, hkey, htrail⟩
    cases key with
    | nil =>
      left
      cases x
      simp only [descend?_nil, Option.some.injEq, List.reverse_nil, List.nil_append] at hkey htrail
      rw [hkey, htrail]
    | cons b rest =>
      right
      obtain ⟨c, hc, rfl, hrest⟩ := (descend?_cons_eq_some ht).1 hkey
      refine ⟨_, List.mem_map.2 ⟨c, hc, rfl⟩, (ih c hc _ _).2 ⟨rest, hrest, ?_⟩⟩
      simp [htrail]

/-- **No node lies below another twice.** Two ways down to one node would
be two keys of it. -/
theorem nodup_below (ht : t.Arranged) {id : NodeId} (h : id < t.nodeCount) (trail stem : Bytes)
    (hstem : t.findNode? stem = some id) : ((t.below ⟨id, trail⟩).map Step.id).Nodup := by
  revert trail stem
  refine ht.upward (fun id hid ih => ?_) h
  intro trail stem hstem
  have hkey : ∀ {c x : NodeId} {key : Bytes}, c ∈ t.childrenOf id → t.descend? c key = some x →
      t.findNode? (stem ++ t.labelOf c :: key) = some x := by
    intro c x key hc hx
    rw [findNode?_append, hstem]
    exact (descend?_cons_eq_some ht).2 ⟨c, hc, rfl, hx⟩
  rw [below_eq ht hid, List.map_cons, List.map_flatMap, childSteps, List.flatMap_map,
    List.nodup_cons, List.nodup_flatMap]
  refine ⟨?_, ?_, ?_⟩
  · intro hin
    obtain ⟨c, hc, hx⟩ := List.mem_flatMap.1 hin
    obtain ⟨x, hx, hxid⟩ := List.mem_map.1 hx
    obtain ⟨key, hdown, -⟩ := (mem_below ht (ht.child_lt hc) _ _).1 hx
    have := ht.findNode?_inj (hkey hc (hxid ▸ hdown)) hstem
    simp at this
  · intro c hc
    have hc' : t.findNode? (stem ++ [t.labelOf c]) = some c := hkey hc rfl
    exact ih c hc _ _ hc'
  · refine List.Pairwise.imp_of_mem ?_ (List.pairwise_map.1 (ht.labels id))
    intro c c' hc hc' hne i hi hi'
    obtain ⟨x, hx, rfl⟩ := List.mem_map.1 hi
    obtain ⟨x', hx', heq⟩ := List.mem_map.1 hi'
    obtain ⟨key, hdown, -⟩ := (mem_below ht (ht.child_lt hc) _ _).1 hx
    obtain ⟨key', hdown', -⟩ := (mem_below ht (ht.child_lt hc') _ _).1 hx'
    have := ht.findNode?_inj (hkey hc hdown) (hkey hc' (heq ▸ hdown'))
    simp only [List.append_cancel_left_eq, List.cons.injEq] at this
    exact hne this.1

theorem length_below_le (ht : t.Arranged) {id : NodeId} (h : id < t.nodeCount) (trail : Bytes) :
    (t.below ⟨id, trail⟩).length ≤ t.nodeCount := by
  obtain ⟨stem, hstem⟩ := ht.exists_findNode? h
  have hsub : (t.below ⟨id, trail⟩).map Step.id ⊆ List.range t.nodeCount := by
    intro i hi
    obtain ⟨x, hx, rfl⟩ := List.mem_map.1 hi
    obtain ⟨key, hdown, -⟩ := (mem_below ht h _ _).1 hx
    exact List.mem_range.2 (ht.descend?_lt h hdown)
  have := ((nodup_below ht h trail stem hstem).subperm hsub).length_le
  simpa using this

/-! ## The walk -/

theorem stepsBelow_eq {step : Step} {node : Node α} (h : t.nodes[step.id]? = some node) :
    t.stepsBelow step node = t.childSteps step := by
  simp only [stepsBelow, childSteps, childrenOf, h]
  rfl

/-- What lies below the steps ahead is the first of them, then what lies
below its children and the others. -/
theorem flatMap_below_cons (ht : t.Arranged) {step : Step} (h : step.id < t.nodeCount)
    (ahead : List Step) : (step :: ahead).flatMap t.below =
      step :: (t.childSteps step ++ ahead).flatMap t.below := by
  rw [List.flatMap_cons, below_eq ht h, List.flatMap_append, List.cons_append]

/-- After a turn the steps ahead lead to nodes again. -/
theorem Arranged.childSteps_append_lt (ht : t.Arranged) {step : Step} {ahead : List Step}
    (hids : ∀ next ∈ step :: ahead, next.id < t.nodeCount) :
    ∀ next ∈ t.childSteps step ++ ahead, next.id < t.nodeCount := by
  intro next hnext
  rcases List.mem_append.1 hnext with hchild | hahead
  · exact (ht.childSteps_bounds hchild).1
  · exact hids next (List.mem_cons_of_mem step hahead)

/-- Induction along a walk: what holds when nothing is ahead, and of what
is ahead as soon as it holds of what is ahead a turn later, holds whatever
is ahead. Every turn leaves one node less to meet. -/
@[elab_as_elim]
theorem Arranged.along (ht : t.Arranged) {motive : List Step → Prop} (ended : motive [])
    (turn : ∀ step ahead, step.id < t.nodeCount → motive (t.childSteps step ++ ahead) →
      motive (step :: ahead))
    {ahead : List Step} (hids : ∀ step ∈ ahead, step.id < t.nodeCount) : motive ahead := by
  generalize hn : (ahead.flatMap t.below).length = n
  induction n using Nat.strongRecOn generalizing ahead with
  | _ n ih =>
    cases ahead with
    | nil => exact ended
    | cons step ahead =>
      have hid := hids step (by simp)
      rw [flatMap_below_cons ht hid, List.length_cons] at hn
      exact turn step ahead hid
        (ih _ (hn ▸ Nat.lt_succ_self _) (ht.childSteps_append_lt hids) rfl)

/-- **Walking on yields what lies below each step ahead**, when the bound
is large enough for all of it. -/
theorem walkOn_eq (ht : t.Arranged) {fuel : Nat} {ahead met : List Step}
    (hids : ∀ step ∈ ahead, step.id < t.nodeCount)
    (hfuel : (ahead.flatMap t.below).length ≤ fuel) :
    t.walkOn fuel ahead met = met.reverse ++ ahead.flatMap t.below := by
  induction fuel generalizing ahead met with
  | zero => simp [walkOn, List.length_eq_zero_iff.1 (Nat.le_zero.1 hfuel)]
  | succ fuel ih =>
    cases ahead with
    | nil => simp [walkOn]
    | cons step ahead =>
      have hid := hids step (by simp)
      obtain ⟨node, hnode⟩ : ∃ node, t.nodes[step.id]? = some node :=
        ⟨_, Array.getElem?_eq_getElem hid⟩
      rw [flatMap_below_cons ht hid] at hfuel ⊢
      simp only [walkOn, hnode, stepsBelow_eq hnode]
      rw [ih (ht.childSteps_append_lt hids) (by simpa using hfuel)]
      simp

/-- **The bound on a walk is never reached.** -/
theorem subtree_eq (ht : t.Arranged) {start : NodeId} (h : start < t.nodeCount) :
    t.subtree start = t.below ⟨start, []⟩ := by
  rw [subtree, walkOn_eq ht (by simpa using h)]
  · simp
  · simpa using length_below_le ht h []

/-- Where there is no node, nothing is walked. -/
theorem subtree_of_le {start : NodeId} (h : t.nodeCount ≤ start) : t.subtree start = [] := by
  have hnone : t.nodes[start]? = none := Array.getElem?_eq_none h
  unfold subtree
  cases t.nodeCount with
  | zero => rfl
  | succ n => cases n <;> simp [walkOn, hnone]

theorem mem_subtree (ht : t.Arranged) {start : NodeId} (h : start < t.nodeCount) {x : Step} :
    x ∈ t.subtree start ↔ t.descend? start x.trail.reverse = some x.id := by
  rw [subtree_eq ht h, mem_below ht h]
  constructor
  · rintro ⟨key, hkey, htrail⟩
    simpa [htrail] using hkey
  · intro hx
    exact ⟨x.trail.reverse, hx, by simp⟩

theorem nodup_subtree (ht : t.Arranged) {start : NodeId} (h : start < t.nodeCount) :
    ((t.subtree start).map Step.id).Nodup := by
  obtain ⟨stem, hstem⟩ := ht.exists_findNode? h
  rw [subtree_eq ht h]
  exact nodup_below ht h [] stem hstem

/-- **A walk from the root meets every node.** -/
theorem mem_subtree_root (ht : t.Arranged) {id : NodeId} :
    id ∈ (t.subtree root).map Step.id ↔ id < t.nodeCount := by
  rw [List.mem_map]
  constructor
  · rintro ⟨x, hx, rfl⟩
    exact ht.findNode?_lt ((mem_subtree ht ht.root_lt).1 hx)
  · intro hid
    obtain ⟨key, hkey⟩ := ht.exists_findNode? hid
    refine ⟨⟨id, key.reverse⟩, (mem_subtree ht ht.root_lt).2 ?_, rfl⟩
    rw [List.reverse_reverse]
    exact hkey

theorem subtree_congr (ht : t.Arranged) (h : t.SameShape u) {start : NodeId}
    (hs : start < t.nodeCount) : t.subtree start = u.subtree start := by
  rw [subtree_eq ht hs, subtree_eq (ht.congr h) (h.count ▸ hs), below_congr h]

/-! ## Searching -/

/-- The keys with a stem and their nodes, whether they hold something or
not, in the order of the walk. -/
def nodesBelow (t : Trie α) (stem : Bytes) : List (Bytes × NodeId) :=
  match t.findNode? stem with
  | none => []
  | some start => (t.subtree start).map fun step => (stem ++ step.trail.reverse, step.id)

theorem mem_nodesBelow (ht : t.Arranged) {stem key : Bytes} {id : NodeId} :
    (key, id) ∈ t.nodesBelow stem ↔ stem <+: key ∧ t.findNode? key = some id := by
  unfold nodesBelow
  cases hs : t.findNode? stem with
  | none =>
    simp only [List.not_mem_nil, false_iff, not_and]
    rintro ⟨rest, rfl⟩
    simp [findNode?_append, hs]
  | some start =>
    have hlt := ht.findNode?_lt hs
    rw [List.mem_map]
    constructor
    · rintro ⟨step, hstep, heq⟩
      obtain ⟨rfl, rfl⟩ := Prod.mk.inj heq
      refine ⟨List.prefix_append _ _, ?_⟩
      rw [findNode?_append, hs]
      exact (mem_subtree ht hlt).1 hstep
    · rintro ⟨⟨rest, rfl⟩, hkey⟩
      rw [findNode?_append, hs, Option.bind_some] at hkey
      exact ⟨⟨id, rest.reverse⟩, (mem_subtree ht hlt).2 (by simpa using hkey), by simp⟩

theorem nodup_nodesBelow (ht : t.Arranged) (stem : Bytes) :
    ((t.nodesBelow stem).map Prod.snd).Nodup := by
  unfold nodesBelow
  cases hs : t.findNode? stem with
  | none => simp
  | some start =>
    have := nodup_subtree ht (ht.findNode?_lt hs)
    simpa [List.map_map, Function.comp_def] using this

theorem nodesBelow_congr (ht : t.Arranged) (h : t.SameShape u) (stem : Bytes) :
    t.nodesBelow stem = u.nodesBelow stem := by
  unfold nodesBelow
  rw [← findNode?_congr ht h]
  cases hs : t.findNode? stem with
  | none => rfl
  | some start => simp only [subtree_congr ht h (ht.findNode?_lt hs)]

/-- How a walk came to where it is shows in the trails only. -/
theorem preorder_append (depth : Nat) (id : NodeId) (trail back : Bytes) :
    t.preorder depth ⟨id, trail ++ back⟩ =
      (t.preorder depth ⟨id, trail⟩).map fun step => ⟨step.id, step.trail ++ back⟩ := by
  induction depth generalizing id trail with
  | zero => rfl
  | succ depth ih =>
    simp only [preorder, childSteps, List.map_cons, List.flatMap_map, List.map_flatMap]
    exact congrArg _ (List.flatMap_congr fun c _ => ih c (t.labelOf c :: trail))

/-- **A key comes first, then what lies below its children**, child by
child. -/
theorem nodesBelow_of_findNode? (ht : t.Arranged) {key : Bytes} {id : NodeId}
    (h : t.findNode? key = some id) :
    t.nodesBelow key =
      (key, id) :: (t.childrenOf id).flatMap fun c => t.nodesBelow (key ++ [t.labelOf c]) := by
  have hlt := ht.findNode?_lt h
  simp only [nodesBelow, h]
  rw [subtree_eq ht hlt, below_eq ht hlt, childSteps, List.flatMap_map, List.map_cons,
    List.map_flatMap]
  refine congrArg₂ _ (by simp) (List.flatMap_congr fun c hc => ?_)
  have hchild : t.findNode? (key ++ [t.labelOf c]) = some c :=
    (descend?_concat_eq_some ht).2 ⟨id, h, hc, rfl⟩
  have hshift := preorder_append (t := t) (t.nodeCount - c) c [] [t.labelOf c]
  simp only [hchild]
  rw [subtree_eq ht (ht.child_lt hc), below, below]
  rw [List.nil_append] at hshift
  simp [hshift]

/-- Searching keeps what is occupied. -/
theorem searchNodes_eq (t : Trie α) (stem : Bytes) :
    t.searchNodes stem = (t.nodesBelow stem).filter fun m => (t.get? m.2).isSome := by
  unfold searchNodes nodesBelow
  cases t.findNode? stem with
  | none => rfl
  | some start =>
    simp only
    induction t.subtree start with
    | nil => rfl
    | cons step rest ih =>
      rw [List.filterMap_cons, List.map_cons, List.filter_cons]
      cases t.get? step.id <;> simp [ih]

/-- **A search finds the keys with a stem that hold something**, and the
nodes where they end. -/
theorem mem_searchNodes (ht : t.Arranged) {stem key : Bytes} {id : NodeId} :
    (key, id) ∈ t.searchNodes stem ↔
      stem <+: key ∧ t.findNode? key = some id ∧ (t.get? id).isSome := by
  rw [searchNodes_eq, List.mem_filter, mem_nodesBelow ht, and_assoc]

/-- **A search finds no node twice.** -/
theorem nodup_searchNodes (ht : t.Arranged) (stem : Bytes) :
    ((t.searchNodes stem).map Prod.snd).Nodup := by
  rw [searchNodes_eq]
  exact (nodup_nodesBelow ht stem).sublist (List.Sublist.map _ List.filter_sublist)

theorem mem_search (ht : t.Arranged) {stem key : Bytes} {x : α} :
    (key, x) ∈ t.search stem ↔ stem <+: key ∧ t.find? key = some x := by
  simp only [search, List.mem_filterMap, Option.map_eq_some_iff, find?_eq_some]
  constructor
  · rintro ⟨⟨key', id⟩, hmem, y, hget, heq⟩
    obtain ⟨rfl, rfl⟩ := Prod.mk.inj heq
    obtain ⟨hstem, hkey, -⟩ := (mem_searchNodes ht).1 hmem
    exact ⟨hstem, id, hkey, hget⟩
  · rintro ⟨hstem, id, hkey, hget⟩
    exact ⟨(key, id), (mem_searchNodes ht).2 ⟨hstem, hkey, by simp [hget]⟩, x, hget, rfl⟩

/-- A search lists the same keys with their nodes and with their values. -/
theorem map_fst_search (t : Trie α) (stem : Bytes) :
    (t.search stem).map Prod.fst = (t.searchNodes stem).map Prod.fst := by
  rw [search, List.map_filterMap, ← List.filterMap_eq_map]
  refine List.filterMap_congr fun m hm => ?_
  rw [searchNodes_eq, List.mem_filter] at hm
  obtain ⟨x, hx⟩ := Option.isSome_iff_exists.1 hm.2
  simp [hx]

theorem search_eq_nil_iff {stem : Bytes} : t.search stem = [] ↔ t.searchNodes stem = [] := by
  have hkeys := map_fst_search t stem
  constructor <;> intro h <;> simpa [h] using hkeys

theorem searchNodes_eq_nil_iff (ht : t.Arranged) {stem : Bytes} :
    t.searchNodes stem = [] ↔ ∀ key, stem <+: key → t.find? key = none := by
  rw [List.eq_nil_iff_forall_not_mem]
  constructor
  · intro h key hstem
    by_contra hne
    obtain ⟨x, hx⟩ := Option.ne_none_iff_exists'.1 hne
    obtain ⟨id, hkey, hget⟩ := find?_eq_some.1 hx
    exact h (key, id) ((mem_searchNodes ht).2 ⟨hstem, hkey, by simp [hget]⟩)
  · rintro h ⟨key, id⟩ hmem
    obtain ⟨hstem, hkey, hsome⟩ := (mem_searchNodes ht).1 hmem
    have := h key hstem
    rw [find?_of_findNode? hkey] at this
    simp [this] at hsome

end Trie

end PrefixCache

import PrefixCache.Proofs.Store.Evicting
import PrefixCache.Proofs.Store.Keyed
/-!
# Looking at every node

What has lapsed is taken out in two ways: an operation looks at a node and
destroys a lapsed item there, or a sweep walks over all slots. Looking at
two nodes comes to the same in either order (`liveAt_comm`), and the walk
meets every node once (`perm_subtree`). So a sweep leaves the very store
that looking at every node leaves, in whatever order
(`sweeping_is_looking`). What it reports is read off the members along the
walk (`expire_report`).
-/

namespace PrefixCache

namespace Trie

variable {α : Type} {t u : Trie α}

/-! ## Nodes in any order -/

theorem eq_of_nodes (hnodes : ∀ j : NodeId, t.nodes[j]? = u.nodes[j]?) (hlive : t.live = u.live) :
    t = u := by
  cases t
  cases u
  exact congr (congrArg mk (Array.ext_getElem? hnodes)) hlive

/-- **Nodes are emptied in either order.** -/
theorem swap_none_comm (t : Trie α) (i j : NodeId) :
    ((t.swap i none).2.swap j none).2 = ((t.swap j none).2.swap i none).2 := by
  have hout {k : NodeId} (hk : ¬ k < t.nodeCount) {u : Trie α} (hu : u.nodeCount = t.nodeCount) :
      (u.swap k none).2 = u := swap_of_le (hu ▸ Nat.le_of_not_lt hk)
  by_cases hij : i = j
  · rw [hij]
  by_cases hi : i < t.nodeCount
  · by_cases hj : j < t.nodeCount
    · have hi' : i < (t.swap j none).2.nodeCount := by rwa [nodeCount_swap]
      have hj' : j < (t.swap i none).2.nodeCount := by rwa [nodeCount_swap]
      refine eq_of_nodes (fun k => ?_) ?_
      · rw [nodes_swap hj', nodes_swap hi', nodes_swap hi, nodes_swap hj]
        by_cases hk : i = k
        · subst hk
          simp [Ne.symm hij]
        · simp [hk]
      · rw [live_swap hj', live_swap hi', live_swap hi, live_swap hj, get?_swap_ne hij,
          get?_swap_ne (Ne.symm hij)]
        exact Nat.sub_right_comm _ _ _
    · rw [hout hj rfl, hout hj nodeCount_swap]
  · rw [hout hi rfl, hout hi nodeCount_swap]

/-- **A walk from the root meets every node once.** -/
theorem perm_subtree (ht : t.Arranged) :
    ((t.subtree root).map Step.id).Perm (List.range t.nodeCount) := by
  refine (List.perm_ext_iff_of_nodup (nodup_subtree ht ht.root_lt) List.nodup_range).2 fun id => ?_
  rw [mem_subtree_root ht, List.mem_range]

/-- There are as many members as the trie counts. -/
theorem length_search_nil (ht : t.Arranged) (htallied : t.Tallied) :
    (t.search []).length = t.size := by
  have hheld : (t.search []).map Prod.snd = ((t.subtree root).map Step.id).filterMap t.get? := by
    rw [search_nil, held, List.map_filterMap, List.filterMap_map]
    refine List.filterMap_congr fun step _ => ?_
    simp only [Option.map_map, Function.comp_apply]
    exact Option.map_id'
  calc (t.search []).length = (((t.subtree root).map Step.id).filterMap t.get?).length := by
        rw [← hheld, List.length_map]
    _ = t.occupants.length := ((perm_subtree ht).filterMap t.get?).length_eq
    _ = t.size := htallied.symm

end Trie

namespace Store

variable {s : Store} {i j : NodeId} {item : Item}

/-! ## Looking in any order -/

/-- A lapsed item is at the node. -/
def lapsedAt (s : Store) (i : NodeId) : Bool :=
  (s.trie.get? i).any fun item => item.Lapsed s.now

theorem liveAt_snd (s : Store) (i : NodeId) :
    (s.liveAt i).2 = if s.lapsedAt i then s.destroyAt i else s := by
  unfold liveAt lapsedAt
  cases s.trie.get? i with
  | none => rfl
  | some item => by_cases h : item.Lapsed s.now <;> simp [h]

theorem destroyAt_eq (s : Store) (i : NodeId) :
    s.destroyAt i =
      { s with trie := (s.trie.swap i none).2
               counters := s.counters.released (s.trie.get? i) } := by
  have hcounters := destroyAt_counters s i
  have htrie := destroyAt_trie s i
  have hlimits := destroyAt_limits s i
  have hnow := destroyAt_now s i
  generalize s.destroyAt i = s' at *
  cases s'
  subst hcounters htrie hlimits hnow
  rfl

theorem released_comm (c : Counters) (a b : Option Item) :
    (c.released a).released b = (c.released b).released a := by
  cases a with
  | none => rfl
  | some a =>
    cases b with
    | none => rfl
    | some b => simp only [Counters.released, Counters.destroyed, Nat.sub_right_comm]

theorem destroyAt_comm (h : i ≠ j) : (s.destroyAt i).destroyAt j = (s.destroyAt j).destroyAt i := by
  simp only [destroyAt_eq, Trie.get?_swap_ne h, Trie.get?_swap_ne (Ne.symm h),
    Trie.swap_none_comm s.trie i j, released_comm s.counters (s.trie.get? i)]

theorem lapsedAt_destroyAt (h : j ≠ i) : (s.destroyAt j).lapsedAt i = s.lapsedAt i := by
  rw [lapsedAt, lapsedAt, destroyAt_now, destroyAt_trie, Trie.get?_swap_ne h]

/-- **Looking at two nodes comes to the same in either order.** -/
theorem liveAt_comm (s : Store) (i j : NodeId) :
    ((s.liveAt i).2.liveAt j).2 = ((s.liveAt j).2.liveAt i).2 := by
  by_cases hij : i = j
  · rw [hij]
  have hi := lapsedAt_destroyAt (s := s) (Ne.symm hij)
  have hj := lapsedAt_destroyAt (s := s) hij
  rw [liveAt_snd s i, liveAt_snd s j]
  cases hli : s.lapsedAt i <;> cases hlj : s.lapsedAt j
  · simp [liveAt_snd, hli, hlj]
  · simp [liveAt_snd, hi, hli, hlj]
  · simp [liveAt_snd, hj, hli, hlj]
  · simp [liveAt_snd, hi, hj, hli, hlj, destroyAt_comm hij]

/-- **Looking at some nodes comes to the same in any order.** -/
theorem foldl_liveAt_perm {ids ids' : List NodeId} (h : ids.Perm ids') (s : Store) :
    ids.foldl (fun s id => (s.liveAt id).2) s = ids'.foldl (fun s id => (s.liveAt id).2) s :=
  have : RightCommutative fun (s : Store) id => (s.liveAt id).2 := ⟨liveAt_comm⟩
  h.foldl_eq s

/-- Where no item has lapsed, looking changes nothing. -/
theorem foldl_liveAt_of_live (h : ∀ i item, s.trie.get? i = some item → ¬ item.Lapsed s.now)
    (ids : List NodeId) : ids.foldl (fun s id => (s.liveAt id).2) s = s := by
  induction ids with
  | nil => rfl
  | cons id ids ih =>
    have hfresh : s.lapsedAt id = false := by
      rw [lapsedAt]
      cases hget : s.trie.get? id with
      | none => rfl
      | some item => exact decide_eq_false (h id item hget)
    rw [List.foldl_cons, liveAt_snd, hfresh]
    exact ih

/-! ## The report -/

/-- A member has lapsed. -/
def lapsed (now : Int) (m : Bytes × Item) : Bool := decide (m.2.Lapsed now)

/-- **What a sweep reports** can be told from the members along its walk. -/
theorem report_expireVisitor (now : Int) {steps : List Trie.Step}
    (hnodup : (steps.map Trie.Step.id).Nodup) (t : Trie Item) (report : SweepReport)
    (c : Counters) :
    (steps.foldl (Trie.visitOne (expireVisitor now)) (t, report, c)).2.1 =
      { scanned := report.scanned + (t.held steps).length
        freed := report.freed + (t.held steps).countP (lapsed now) } := by
  induction steps generalizing t report c with
  | nil => rfl
  | cons step steps ih =>
    obtain ⟨hout, hrest⟩ := List.nodup_cons.1 hnodup
    -- the nodes to come hold what they held, whatever is left at this one
    have hlater (slot : Option Item) : (t.swap step.id slot).2.held steps = t.held steps :=
      Trie.held_congr fun next hnext =>
        Trie.get?_swap_ne fun h => hout (h ▸ List.mem_map_of_mem hnext)
    rw [List.foldl_cons]
    simp only [Trie.visitOne]
    cases hget : t.get? step.id with
    | none =>
      rw [Trie.held_cons_none hget]
      simp only [expireVisitor]
      rw [ih hrest, hlater]
    | some item =>
      rw [Trie.held_cons_some hget, List.length_cons, List.countP_cons]
      by_cases hl : item.Lapsed now
      · simp only [expireVisitor, if_pos hl, sweepOut, scan]
        rw [ih hrest, hlater]
        simp only [lapsed, hl, decide_true, if_true]
        exact congrArg₂ SweepReport.mk (Nat.add_right_comm ..) (Nat.add_right_comm ..)
      · simp only [expireVisitor, if_neg hl, scan]
        rw [ih hrest, hlater]
        simp only [lapsed, hl, decide_false]
        exact congrArg₂ SweepReport.mk (Nat.add_right_comm ..) rfl

theorem expireSweep_fst (hs : s.trie.Arranged) :
    s.expireSweep.1 =
      { scanned := (s.trie.search []).length
        freed := (s.trie.search []).countP (lapsed s.now) } := by
  have hreport := report_expireVisitor s.now (Trie.nodup_subtree hs hs.root_lt) s.trie {} s.counters
  rw [Nat.zero_add, Nat.zero_add, ← Trie.search_nil] at hreport
  exact hreport

/-- **A sweep leaves the members that have not lapsed**, in the same order. -/
theorem search_expireSweep (hs : s.trie.Arranged) :
    s.expireSweep.2.trie.search [] = (s.trie.search []).filter fun m => !lapsed s.now m := by
  have hwalk := Trie.subtree_congr hs (sameGround_expireSweep s).shape hs.root_lt
  rw [Trie.search_nil, Trie.search_nil, ← hwalk, Trie.held, Trie.held, List.filter_filterMap]
  refine List.filterMap_congr fun step _ => ?_
  rw [get?_expireSweep hs, liveItem?]
  cases s.trie.get? step.id with
  | none => rfl
  | some item => by_cases h : item.Lapsed s.now <;> simp [lapsed, h, Option.filter]

/-- **Sweeping and looking come to the same.** In every store that a run
leads to, a sweep of what has lapsed leaves what looking at every node once
leaves, in any order. What it keeps is what has not lapsed, unchanged and
under its key. It reports how many items there were and how many of them
are gone, and a second sweep at the same time destroys nothing. -/
theorem sweeping_is_looking {s : Store} (hs : s.Reachable) :
    let s' := s.expireSweep.2
    (∀ ids : List NodeId, ids.Perm (List.range s.trie.nodeCount) →
      ids.foldl (fun s id => (s.check id).2) s = s') ∧
    (∀ key, s'.trie.find? key = (s.trie.find? key).filter fun item => ¬ item.Lapsed s.now) ∧
    s'.size ≤ s.size ∧
    s.expireSweep.1 = { scanned := s.size, freed := s.size - s'.size } ∧
    s'.expireSweep = ({ scanned := s'.size, freed := 0 }, s') := by
  intro s'
  have hsound := hs.sound
  have hsound' : s'.Sound := (upholds_expireSweep hsound).sound
  have hlength := Trie.length_search_nil hsound.arranged hsound.tallied
  have hlength' := Trie.length_search_nil hsound'.arranged hsound'.tallied
  have hleft : s'.trie.search [] = (s.trie.search []).filter fun m => !lapsed s.now m :=
    search_expireSweep hsound.arranged
  have hnow : s'.now = s.now := (sameGround_expireSweep s).now
  -- every member has lapsed or is left
  have hsplit : (s.trie.search []).countP (lapsed s.now) + s'.size = s.size := by
    have hcount := List.length_eq_countP_add_countP (lapsed s.now) (l := s.trie.search [])
    rw [Store.size, Store.size, ← hlength, ← hlength', hleft, ← List.countP_eq_length_filter]
    simpa using hcount.symm
  refine ⟨fun ids hids => ?_, fun key => ?_, by omega, ?_, ?_⟩
  · have hwalk := (Trie.perm_subtree hsound.arranged).symm
    exact (foldl_liveAt_perm (hids.trans hwalk) s).trans (expireSweep_snd s).symm
  · rw [find?_expireSweep hsound.arranged, liveUnder?, Trie.find?]
    cases s.trie.findNode? key <;> rfl
  · rw [expireSweep_fst hsound.arranged, hlength]
    exact congrArg₂ SweepReport.mk rfl (by omega)
  · have hlive : ∀ id item, s'.trie.get? id = some item → ¬ item.Lapsed s'.now := by
      intro id item hget
      rw [get?_expireSweep hsound.arranged] at hget
      exact hnow ▸ (liveItem?_eq_some.1 hget).2
    have hnone : (s'.trie.search []).countP (lapsed s'.now) = 0 := by
      rw [List.countP_eq_zero, hleft, hnow]
      intro m hm
      simpa using (List.mem_filter.1 hm).2
    refine Prod.ext ?_ ?_
    · rw [expireSweep_fst hsound'.arranged, hlength', hnone]
      rfl
    · rw [expireSweep_snd]
      exact foldl_liveAt_of_live hlive _

/-- A store with an item that has lapsed, one that a lock holds past its
time, and one with time left. -/
def elapsing : Store :=
  (empty {} 100).after
    [.onKey [97] (.set [1] 2), .onKey [97, 98] (.set [2] 2), .onKey [97, 98] (.lock 60),
      .onKey [98] (.set [3] 50), .setClock 105]

theorem elapsing_is_looked_at :
    elapsing.Reachable ∧
      [3, 1, 0, 2].foldl (fun s id => (s.check id).2) elapsing = elapsing.expireSweep.2 ∧
      elapsing.expireSweep.1 = { scanned := 3, freed := 1 } ∧
      elapsing.expireSweep.2.expireSweep.1 = { scanned := 2, freed := 0 } := by
  have hs : elapsing.Reachable := Reached.after (.empty {} 100) fun _ _ => trivial
  obtain ⟨hlooked, -, -, hreport, hagain⟩ := sweeping_is_looking hs
  refine ⟨hs, hlooked [3, 1, 0, 2] (by decide), ?_, ?_⟩
  · rw [hreport]
    decide
  · rw [hagain]
    decide

end Store

end PrefixCache

import PrefixCache.Proofs.Store.Books
/-!
# Sweeps as a series of destructions

A sweep carries a trie and counters through a walk. Seen from the store it
is simpler: at every node in turn, the item there is destroyed if it is
doomed (`sweep_snd`). Sweeping out what has lapsed is looking at every
node once (`expireSweep_snd`), after which every node holds its live item
(`get?_expireSweep`). Every sweep keeps the books right, and destroying
everything brings them to zero.
-/

namespace PrefixCache

namespace Store

variable {s : Store} {item : Item} (doomed : Counters → Item → Bool)

/-- Destroys the item of a node if it is doomed, as the counters stand. -/
def cull (doomed : Counters → Item → Bool) (s : Store) (id : NodeId) : Store :=
  match s.trie.get? id with
  | some item => if doomed s.counters item then s.destroyAt id else s
  | none => s

/-- A visitor that empties the slots of doomed items, counts them as gone,
and does nothing else. -/
structure Culls (doomed : Counters → Item → Bool) (visit : Trie.Visitor Item Sweeping) : Prop where
  none (id : NodeId) (state : Sweeping) : visit id none state = (none, state)
  slot (id : NodeId) (item : Item) (state : Sweeping) :
    (visit id (some item) state).1 = if doomed state.2 item then Option.none else some item
  counters (id : NodeId) (item : Item) (state : Sweeping) :
    (visit id (some item) state).2.2 =
      if doomed state.2 item then state.2.destroyed item else state.2

/-- One visit, seen from the store. -/
theorem visitOne_eq_cull {doomed : Counters → Item → Bool}
    {visit : Trie.Visitor Item Sweeping} (h : Culls doomed visit) (s : Store) (report : SweepReport) (step : Trie.Step) :
    Trie.visitOne visit (s.trie, report, s.counters) step =
      ((s.cull doomed step.id).trie,
        (visit step.id (s.trie.get? step.id) (report, s.counters)).2.1,
        (s.cull doomed step.id).counters) := by
  simp only [Trie.visitOne, cull]
  cases hget : s.trie.get? step.id with
  | none =>
    simp only [h.none]
    exact congrArg (·, report, s.counters) (hget ▸ Trie.swap_get?)
  | some item =>
    have hslot := h.slot step.id item (report, s.counters)
    have hcounters := h.counters step.id item (report, s.counters)
    by_cases hd : doomed s.counters item
    · simp only [hd, if_true] at hslot hcounters ⊢
      rw [destroyAt_trie, destroyAt_counters, hget, Counters.released, ← hcounters, ← hslot]
    · simp only [hd, if_false, Bool.false_eq_true] at hslot hcounters ⊢
      rw [hslot, ← hget, Trie.swap_get?, hget]
      exact Prod.ext rfl (Prod.ext rfl hcounters)

theorem sameGround_cull (s : Store) (id : NodeId) : s.SameGround (s.cull doomed id) := by
  unfold cull
  split
  · split
    · exact ⟨destroyAt_trie s id ▸ (Trie.sameShape_swap _ _ _).symm, destroyAt_limits s id,
        destroyAt_now s id⟩
    · exact .refl s
  · exact .refl s

/-- **A sweep destroys the doomed items, node by node.** -/
theorem sweep_snd {doomed : Counters → Item → Bool} {visit : Trie.Visitor Item Sweeping}
    (h : Culls doomed visit) (s : Store) :
    (s.sweep visit).2 =
      ((s.trie.subtree Trie.root).map Trie.Step.id).foldl (cull doomed) s := by
  have hfold : ∀ (steps : List Trie.Step) (s : Store) (report : SweepReport),
      ({ s with
        trie := (steps.foldl (Trie.visitOne visit) (s.trie, report, s.counters)).1
        counters := (steps.foldl (Trie.visitOne visit) (s.trie, report, s.counters)).2.2 } : Store)
        = (steps.map Trie.Step.id).foldl (cull doomed) s := by
    -- the report is carried along and decides nothing
    intro steps
    induction steps with
    | nil => exact fun s report => rfl
    | cons step steps ih =>
      intro s report
      have hground := sameGround_cull doomed s step.id
      rw [List.foldl_cons, visitOne_eq_cull h, List.map_cons, List.foldl_cons,
        ← ih _ (visit step.id (s.trie.get? step.id) (report, s.counters)).2.1, hground.limits,
        hground.now]
  exact hfold _ s {}

theorem sameGround_foldl_cull (ids : List NodeId) (s : Store) :
    s.SameGround (ids.foldl (cull doomed) s) := by
  induction ids generalizing s with
  | nil => exact .refl s
  | cons id ids ih => exact (sameGround_cull doomed s id).trans (ih _)

theorem upholds_cull (h : s.Sound) (id : NodeId) : s.Upholds (s.cull doomed id) 0 := by
  unfold cull
  split
  · split
    · exact upholds_destroyAt h id
    · exact .refl h
  · exact .refl h

theorem upholds_foldl_cull (h : s.Sound) (ids : List NodeId) :
    s.Upholds (ids.foldl (cull doomed) s) 0 := by
  induction ids generalizing s with
  | nil => exact .refl h
  | cons id ids ih =>
    have hone := upholds_cull doomed h id
    exact hone.trans (ih hone.sound)

/-- A sweep never uses more memory. -/
theorem memoryUsed_foldl_cull_le (ids : List NodeId) (s : Store) :
    (ids.foldl (cull doomed) s).counters.memoryUsed ≤ s.counters.memoryUsed := by
  induction ids generalizing s with
  | nil => exact Nat.le_refl _
  | cons id ids ih =>
    refine Nat.le_trans (ih _) ?_
    unfold cull
    cases hget : s.trie.get? id with
    | none => exact Nat.le_refl _
    | some item =>
      simp only
      split
      · rw [destroyAt_counters, hget]
        exact Nat.sub_le _ _
      · exact Nat.le_refl _

/-- A node is left alone, or emptied of a doomed item. -/
theorem get?_cull (s : Store) (id j : NodeId) :
    (s.cull doomed id).trie.get? j = s.trie.get? j ∨
      id = j ∧ (s.cull doomed id).trie.get? j = none ∧
        ∃ item, s.trie.get? j = some item ∧ doomed s.counters item = true := by
  unfold cull
  cases hget : s.trie.get? id with
  | none => exact .inl rfl
  | some item =>
    by_cases hd : doomed s.counters item = true
    · simp only [hd, if_true, destroyAt_trie]
      by_cases hj : id = j
      · subst hj
        refine .inr ⟨rfl, Trie.get?_swap_self (Trie.lt_nodeCount_of_get? hget), item, hget, hd⟩
      · exact .inl (Trie.get?_swap_ne hj)
    · simp only [hd]
      exact .inl rfl

/-- What is at a node after a sweep was there before. -/
theorem get?_of_foldl_cull {j : NodeId} {ids : List NodeId}
    (hget : (ids.foldl (cull doomed) s).trie.get? j = some item) : s.trie.get? j = some item := by
  induction ids generalizing s with
  | nil => exact hget
  | cons id ids ih =>
    have hfirst := ih hget
    rcases get?_cull doomed s id j with hsame | ⟨-, hnone, -⟩
    · exact hsame.symm.trans hfirst
    · rw [hnone] at hfirst
      cases hfirst

/-- **An item that is never doomed survives every sweep.** -/
theorem get?_foldl_cull_of_spared {doomed : Counters → Item → Bool}
    (hspared : ∀ c, doomed c item = false) {j : NodeId} (hget : s.trie.get? j = some item)
    (ids : List NodeId) :
    (ids.foldl (cull doomed) s).trie.get? j = some item := by
  induction ids generalizing s with
  | nil => exact hget
  | cons id ids ih =>
    refine ih ?_
    rcases get?_cull doomed s id j with hsame | ⟨-, -, item', hget', hd⟩
    · rw [hsame, hget]
    · rw [hget] at hget'
      cases hget'
      rw [hspared] at hd
      cases hd

/-! ## The sweeps -/

theorem culls_expireVisitor (now : Int) :
    Culls (fun _ item => decide (item.Lapsed now)) (expireVisitor now) where
  none _ _ := rfl
  slot _ item state := by by_cases h : item.Lapsed now <;> simp [expireVisitor, h, sweepOut]
  counters _ item state := by
    by_cases h : item.Lapsed now <;> simp [expireVisitor, h, sweepOut, scan]

theorem culls_evictVisitor (limits : StoreLimits) (now : Int) :
    Culls (fun c item => decide (¬ c.memoryUsed ≤ limits.maxMemory ∧ Evictable limits now item))
      (evictVisitor limits now) where
  none _ _ := rfl
  slot _ item state := by
    by_cases hm : state.2.memoryUsed ≤ limits.maxMemory <;>
      by_cases he : Evictable limits now item <;> simp [evictVisitor, hm, he, sweepOut]
  counters _ item state := by
    by_cases hm : state.2.memoryUsed ≤ limits.maxMemory <;>
      by_cases he : Evictable limits now item <;> simp [evictVisitor, hm, he, sweepOut, scan]

/-- **Sweeping out what has lapsed is looking at every node.** -/
theorem expireSweep_snd (s : Store) :
    s.expireSweep.2 =
      ((s.trie.subtree Trie.root).map Trie.Step.id).foldl (fun s id => (s.liveAt id).2) s := by
  have hone : ∀ (s' : Store) (id : NodeId), s'.now = s.now →
      s'.cull (fun _ item => decide (item.Lapsed s.now)) id = (s'.liveAt id).2 := by
    intro s' id hnow
    unfold cull liveAt
    rw [hnow]
    cases s'.trie.get? id with
    | none => rfl
    | some item => by_cases h : item.Lapsed s.now <;> simp [h]
  have hfold : ∀ (ids : List NodeId) (s' : Store), s'.now = s.now →
      ids.foldl (cull fun _ item => decide (item.Lapsed s.now)) s' =
        ids.foldl (fun s id => (s.liveAt id).2) s' := by
    intro ids
    induction ids with
    | nil => exact fun s' _ => rfl
    | cons id ids ih =>
      intro s' hnow
      rw [List.foldl_cons, List.foldl_cons, hone s' id hnow]
      exact ih _ ((sameGround_liveAt s' id).now.trans hnow)
  rw [expireSweep, sweep_snd (culls_expireVisitor s.now), hfold _ s rfl]

theorem get?_foldl_liveAt (ids : List NodeId) (s : Store) (j : NodeId) :
    (ids.foldl (fun s id => (s.liveAt id).2) s).trie.get? j =
      if j ∈ ids then s.liveItem? j else s.trie.get? j := by
  induction ids generalizing s with
  | nil => simp
  | cons id ids ih =>
    have hnow := (sameGround_liveAt s id).now
    -- a node that has been looked at holds its live item, and looking again keeps it
    have hlive : (s.liveAt id).2.liveItem? j = s.liveItem? j := by
      rw [liveItem?, hnow, get?_liveAt]
      split
      · rw [liveItem?, Option.filter_filter]
        simp
      · rfl
    rw [List.foldl_cons, ih, hlive, get?_liveAt]
    by_cases hj : j ∈ ids <;> by_cases hid : id = j <;> simp [hj, hid, eq_comm (a := j)]

theorem sameGround_expireSweep (s : Store) : s.SameGround s.expireSweep.2 := by
  rw [expireSweep, sweep_snd (culls_expireVisitor s.now)]
  exact sameGround_foldl_cull _ _ s

/-- **After it every node holds its live item.** -/
theorem get?_expireSweep (h : s.trie.Arranged) (j : NodeId) :
    s.expireSweep.2.trie.get? j = s.liveItem? j := by
  rw [expireSweep_snd, get?_foldl_liveAt]
  split
  · rfl
  · next hj =>
    have hle : s.trie.nodeCount ≤ j :=
      Nat.le_of_not_lt fun hlt => hj ((Trie.mem_subtree_root h).2 hlt)
    rw [Trie.get?_of_le hle, liveItem?_of_get?_none (Trie.get?_of_le hle)]

theorem upholds_expireSweep (h : s.Sound) : s.Upholds s.expireSweep.2 0 := by
  rw [expireSweep, sweep_snd (culls_expireVisitor s.now)]
  exact upholds_foldl_cull _ h _

/-- An operation that the budget does not refuse is not refused after the
sweep either. -/
theorem fits_expireSweep {refusable : Prop} (hfits : refusable → ¬ s.OverBudget) :
    refusable → ¬ s.expireSweep.2.OverBudget := by
  intro href h
  refine hfits href ?_
  have hlimits := (sameGround_expireSweep s).limits
  have hless : s.expireSweep.2.counters.memoryUsed ≤ s.counters.memoryUsed := by
    rw [expireSweep, sweep_snd (culls_expireVisitor s.now)]
    exact memoryUsed_foldl_cull_le _ _ s
  rw [OverBudget, hlimits] at h
  exact Nat.lt_of_lt_of_le h hless

theorem sameGround_memorySweep (s : Store) : s.SameGround s.memorySweep.2 := by
  unfold memorySweep
  split
  · rw [sweep_snd (culls_evictVisitor s.limits s.now)]
    exact sameGround_foldl_cull _ _ s
  · exact .refl s

theorem upholds_memorySweep (h : s.Sound) : s.Upholds s.memorySweep.2 0 := by
  unfold memorySweep
  split
  · rw [sweep_snd (culls_evictVisitor s.limits s.now)]
    exact upholds_foldl_cull _ h _
  · exact .refl h

/-! ## Destroying everything -/

/-- The store after every item has been destroyed, with its nodes still
there. -/
def drained (s : Store) : Store :=
  ((s.trie.subtree Trie.root).map Trie.Step.id).foldl (cull fun _ _ => true) s

theorem destroyAll_snd (s : Store) :
    s.destroyAll.2 = { s.drained with trie := .empty } := by
  have hculls : Culls (fun _ _ => true) fun (_ : NodeId) (slot : Option Item) state =>
      match slot with
      | some item => sweepOut item state
      | none => (none, state) :=
    ⟨fun _ _ => rfl, fun _ _ _ => rfl, fun _ _ _ => rfl⟩
  exact congrArg (fun s : Store => { s with trie := .empty }) (sweep_snd hculls s)

theorem get?_foldl_cull_all (ids : List NodeId) (s : Store) {j : NodeId}
    (h : j ∈ ids ∨ s.trie.get? j = none) :
    (ids.foldl (cull fun _ _ => true) s).trie.get? j = none := by
  induction ids generalizing s with
  | nil => exact h.resolve_left (by simp)
  | cons id ids ih =>
    refine ih _ ?_
    -- an empty node stays empty, and an occupied one is emptied at its turn
    rcases get?_cull (fun _ _ => true) s id j with hsame | ⟨-, hnone, -⟩
    · rcases h with hmem | hnone
      · rcases List.mem_cons.1 hmem with rfl | hlater
        · right
          cases hget : s.trie.get? j with
          | none => rw [hsame, hget]
          | some item =>
            have hid := Trie.lt_nodeCount_of_get? hget
            simp [cull, hget, Trie.get?_swap_self hid]
        · exact .inl hlater
      · exact .inr (hsame.trans hnone)
    · exact .inr hnone

theorem occupants_drained (h : s.trie.Arranged) : s.drained.trie.occupants = [] := by
  rw [List.eq_nil_iff_forall_not_mem]
  intro item hitem
  obtain ⟨j, hj⟩ := Trie.mem_occupants.1 hitem
  rw [drained, get?_foldl_cull_all] at hj
  · cases hj
  · by_cases hlt : j < s.trie.nodeCount
    · exact .inl ((Trie.mem_subtree_root h).2 hlt)
    · exact .inr (Trie.get?_of_le (Nat.le_of_not_lt hlt))

/-- **Destroying everything brings the counters of items to zero.** -/
theorem counters_destroyAll (h : s.Sound) :
    s.destroyAll.2.counters.items = 0 ∧ s.destroyAll.2.counters.compressedItems = 0 ∧
      s.destroyAll.2.counters.memoryUsed = 0 := by
  have hsound := (upholds_foldl_cull (fun _ _ => true) h
    ((s.trie.subtree Trie.root).map Trie.Step.id)).sound
  have hocc := occupants_drained h.arranged
  have hitems : s.drained.counters.items = s.drained.trie.occupants.length := hsound.items
  have hcompressed : s.drained.counters.compressedItems =
    (s.drained.trie.occupants.map fun i => Counters.compressedWeight i.value).sum :=
    hsound.compressed
  have hmemory : s.drained.counters.memoryUsed =
    (s.drained.trie.occupants.map Item.footprint).sum := hsound.memory
  rw [destroyAll_snd]
  exact ⟨by simpa [hocc] using hitems, by simpa [hocc] using hcompressed,
    by simpa [hocc] using hmemory⟩

theorem upholds_destroyAll (h : s.Sound) : s.Upholds s.destroyAll.2 0 := by
  obtain ⟨hitems, hcompressed, hmemory⟩ := counters_destroyAll h
  have hdrained := upholds_foldl_cull (fun _ _ => true) h
    ((s.trie.subtree Trie.root).map Trie.Step.id)
  have htrie : s.destroyAll.2.trie = .empty := by rw [destroyAll_snd]
  refine ⟨⟨htrie ▸ Trie.arranged_empty, htrie ▸ Trie.tallied_empty, ?_, ?_, ?_, ?_⟩, ?_, ?_⟩
  · rw [htrie, hitems, Trie.occupants_empty]
    rfl
  · rw [htrie, hcompressed, Trie.occupants_empty]
    rfl
  · rw [htrie, hmemory, Trie.occupants_empty]
    rfl
  · rw [hmemory]
    exact Nat.zero_le _
  · rw [destroyAll_snd]
    exact hdrained.peak
  · rw [destroyAll_snd]
    exact hdrained.compressions

end Store

end PrefixCache

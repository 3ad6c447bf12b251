import PrefixCache.Proofs.Store.Running
import PrefixCache.Proofs.Trie.Search
/-!
# What an eviction takes

A sweep under memory pressure meets the members of the trie one after the
other, and stops to look as soon as the budget is met. How far it has to
look can be told from the list of members alone (`inspected`): it is the
shortest beginning of the list whose evictable members weigh enough
(`isShortest_inspected`). Along the walk the sweep counts what it has
looked at, destroys the evictable ones of them and leaves everything else
as it was (`foldl_evict`). So what it destroys is the shortest beginning of
the evictable members that brings the memory within the budget
(`eviction_is_minimal`).

How old an item is and how long it was not used are signed words. As long
as the differences of times fit, an item is evictable just when the times
say so (`evictable_iff_byTimes`); an item whose times are too far from the
clock may be spared though it was never used since (`wrapped_item_is_spared`).
-/

namespace PrefixCache

/-! ## Shortest beginnings -/

/-- `xs` is the shortest beginning of `whole` that is enough, or all of it
if none is. -/
structure IsShortest {α : Type} (enough : List α → Prop) (whole xs : List α) : Prop where
  beginning : xs <+: whole
  least {fewer : List α} : fewer <+: xs → fewer ≠ xs → ¬ enough fewer
  enough : enough xs ∨ xs = whole

namespace IsShortest

variable {α : Type} {enough : List α → Prop} {whole xs : List α}

/-- **Where only some members matter**, these form a shortest beginning of
all those that do. -/
theorem filter {p : α → Bool} (h : IsShortest (fun met => enough (met.filter p)) whole xs) :
    IsShortest enough (whole.filter p) (xs.filter p) where
  beginning := h.beginning.filter p
  least {fewer} hfewer hne := by
    obtain ⟨met, hmet, rfl⟩ := List.prefix_filter_iff.1 hfewer
    refine h.least hmet ?_
    rintro rfl
    exact hne rfl
  enough := h.enough.imp id (congrArg (List.filter p))

end IsShortest

/-! ## Members along a walk -/

namespace Trie

variable {α : Type} {t u : Trie α} {step : Step} {steps : List Step}

/-- What the nodes of some steps hold, with their keys. -/
def held (t : Trie α) (steps : List Step) : List (Bytes × α) :=
  steps.filterMap fun step => (t.get? step.id).map fun x => (step.trail.reverse, x)

theorem held_cons_none (h : t.get? step.id = none) : t.held (step :: steps) = t.held steps := by
  simp [held, h]

theorem held_cons_some {x : α} (h : t.get? step.id = some x) :
    t.held (step :: steps) = (step.trail.reverse, x) :: t.held steps := by
  simp [held, h]

theorem held_congr (h : ∀ step ∈ steps, t.get? step.id = u.get? step.id) :
    t.held steps = u.held steps :=
  List.filterMap_congr fun step hstep => by rw [h step hstep]

/-- A search for everything is what the walk from the root holds. -/
theorem search_nil (t : Trie α) : t.search [] = t.held (t.subtree root) := by
  have hroot : t.findNode? [] = some root := rfl
  rw [search, searchNodes, hroot, List.filterMap_filterMap, held]
  refine List.filterMap_congr fun step _ => ?_
  cases hget : t.get? step.id <;> simp [hget]

end Trie

namespace Store

variable {s : Store} {limits : StoreLimits} {now : Int}

/-- What members count for together. -/
def footprints (ms : List (Bytes × Item)) : Nat := (ms.map fun m => m.2.footprint).sum

@[simp] theorem footprints_cons (m : Bytes × Item) (ms : List (Bytes × Item)) :
    footprints (m :: ms) = m.2.footprint + footprints ms := rfl

/-- A member may be evicted. -/
def evictable (limits : StoreLimits) (now : Int) (m : Bytes × Item) : Bool :=
  decide (Evictable limits now m.2)

/-! ## How far a sweep looks -/

/-- The members that a sweep looks at while `used` bytes are in use. -/
def inspected (limits : StoreLimits) (now : Int) : (used : Nat) → List (Bytes × Item) →
    List (Bytes × Item)
  | _, [] => []
  | used, m :: ms =>
    if used ≤ limits.maxMemory then []
    else
      m :: inspected limits now (if evictable limits now m then used - m.2.footprint else used) ms

theorem inspected_of_le {used : Nat} (h : used ≤ limits.maxMemory) (ms : List (Bytes × Item)) :
    inspected limits now used ms = [] := by
  cases ms with
  | nil => rfl
  | cons m ms => rw [inspected, if_pos h]

/-- **A sweep looks no further than it has to.** -/
theorem isShortest_inspected (limits : StoreLimits) (now : Int) (used : Nat)
    (ms : List (Bytes × Item)) :
    IsShortest (fun met => used - footprints (met.filter (evictable limits now)) ≤ limits.maxMemory)
      ms (inspected limits now used ms) := by
  induction ms generalizing used with
  | nil => exact ⟨List.nil_prefix, fun h hne => absurd (List.prefix_nil.1 h) hne, .inr rfl⟩
  | cons m ms ih =>
    by_cases hle : used ≤ limits.maxMemory
    · rw [inspected_of_le hle]
      exact ⟨List.nil_prefix, fun h hne => absurd (List.prefix_nil.1 h) hne, .inl hle⟩
    · rw [inspected, if_neg hle]
      -- looking at the member leaves the rest with what is in use after it
      have hafter (met : List (Bytes × Item)) :
          used - footprints ((m :: met).filter (evictable limits now)) =
            (if evictable limits now m then used - m.2.footprint else used) -
              footprints (met.filter (evictable limits now)) := by
        rw [List.filter_cons]
        split
        · rw [footprints_cons, Nat.sub_sub]
        · rfl
      obtain ⟨hbeginning, hleast, henough⟩ :=
        ih (if evictable limits now m then used - m.2.footprint else used)
      refine ⟨List.cons_prefix_cons.2 ⟨rfl, hbeginning⟩, fun {fewer} hfewer hne => ?_, ?_⟩
      · cases fewer with
        | nil => exact hle
        | cons first fewer =>
          obtain ⟨rfl, hrest⟩ := List.cons_prefix_cons.1 hfewer
          rw [hafter]
          exact hleast hrest fun heq => hne (congrArg _ heq)
      · rw [hafter]
        exact henough.imp id (congrArg _)

/-- What a sweep does with some members. It counts those it looks at; of
these it destroys the ones that may be evicted, and it leaves the others
and those it does not get to. -/
structure Evicted (limits : StoreLimits) (now : Int) (members left : List (Bytes × Item))
    (used used' : Nat) (report report' : SweepReport) : Prop where
  report_eq : report' =
    { scanned := report.scanned + (inspected limits now used members).length
      freed := report.freed +
        ((inspected limits now used members).filter (evictable limits now)).length }
  left_eq : left =
    (inspected limits now used members).filter (fun m => !evictable limits now m) ++
      members.drop (inspected limits now used members).length
  memory : used' + footprints ((inspected limits now used members).filter (evictable limits now)) =
    used

namespace Evicted

variable {members left : List (Bytes × Item)} {m : Bytes × Item} {used used' : Nat}
variable {report report' : SweepReport}

/-- Once the budget is met, a member is not looked at any more. -/
theorem pass (hle : used ≤ limits.maxMemory)
    (h : Evicted limits now members left used used' report report') :
    Evicted limits now (m :: members) (m :: left) used used' report report' := by
  obtain ⟨hreport, hleft, hmemory⟩ := h
  rw [inspected_of_le hle] at hreport hleft hmemory
  constructor <;> rw [inspected_of_le hle]
  · exact hreport
  · exact congrArg (List.cons m) hleft
  · exact hmemory

/-- A member that may not be evicted is looked at and left. -/
theorem spare (hover : ¬ used ≤ limits.maxMemory) (hm : evictable limits now m = false)
    (h : Evicted limits now members left used used'
      { report with scanned := report.scanned + 1 } report') :
    Evicted limits now (m :: members) (m :: left) used used' report report' := by
  have hseen : inspected limits now used (m :: members) =
      m :: inspected limits now used members := by
    rw [inspected, if_neg hover, hm]
    rfl
  constructor <;> rw [hseen]
  · rw [h.report_eq, List.filter_cons_of_neg (by simp [hm]), List.length_cons]
    exact congrArg₂ SweepReport.mk (Nat.add_right_comm ..) rfl
  · rw [List.filter_cons_of_pos (by simp [hm]), h.left_eq]
    rfl
  · rw [List.filter_cons_of_neg (by simp [hm]), h.memory]

/-- A member that may be evicted is destroyed. -/
theorem destroy (hover : ¬ used ≤ limits.maxMemory) (hm : evictable limits now m = true)
    (hcovers : m.2.footprint ≤ used)
    (h : Evicted limits now members left (used - m.2.footprint) used'
      { scanned := report.scanned + 1, freed := report.freed + 1 } report') :
    Evicted limits now (m :: members) left used used' report report' := by
  have hseen : inspected limits now used (m :: members) =
      m :: inspected limits now (used - m.2.footprint) members := by
    rw [inspected, if_neg hover, if_pos hm]
  constructor <;> rw [hseen]
  · rw [h.report_eq, List.filter_cons_of_pos hm, List.length_cons, List.length_cons]
    exact congrArg₂ SweepReport.mk (Nat.add_right_comm ..) (Nat.add_right_comm ..)
  · rw [List.filter_cons_of_neg (by simp [hm]), h.left_eq]
    rfl
  · have hmemory := h.memory
    rw [List.filter_cons_of_pos hm, footprints_cons]
    omega

end Evicted

/-! ## The sweep -/

/-- Whether a sweep destroys an item, as the counters stand. -/
def evicts (limits : StoreLimits) (now : Int) (c : Counters) (item : Item) : Bool :=
  decide (¬ c.memoryUsed ≤ limits.maxMemory ∧ Evictable limits now item)

theorem culls_evicts (limits : StoreLimits) (now : Int) :
    Culls (evicts limits now) (evictVisitor limits now) :=
  culls_evictVisitor limits now

/-- A sweep leaves the nodes alone that it does not meet. -/
theorem get?_foldl_cull_of_not_mem (doomed : Counters → Item → Bool) {j : NodeId}
    {ids : List NodeId} (hj : j ∉ ids) (s : Store) :
    (ids.foldl (cull doomed) s).trie.get? j = s.trie.get? j := by
  induction ids generalizing s with
  | nil => rfl
  | cons id ids ih =>
    obtain ⟨hne, hrest⟩ := List.ne_and_not_mem_of_not_mem_cons hj
    rw [List.foldl_cons, ih hrest]
    exact (get?_cull doomed s id j).resolve_right fun h => hne h.1.symm

/-- An item that may not be evicted is left, and so is any item once the
budget is met. -/
theorem cull_evicts_of_spared {id : NodeId} {item : Item} (hget : s.trie.get? id = some item)
    (h : s.counters.memoryUsed ≤ limits.maxMemory ∨ ¬ Evictable limits now item) :
    s.cull (evicts limits now) id = s := by
  have hspared : evicts limits now s.counters item = false :=
    decide_eq_false fun hgoes => h.elim hgoes.1 fun hnot => hnot hgoes.2
  simp [cull, hget, hspared]

/-- While the budget is not met, an item that may be evicted is destroyed,
and its memory is free again. -/
theorem cull_evicts_of_doomed {id : NodeId} {item : Item} (hget : s.trie.get? id = some item)
    (hover : ¬ s.counters.memoryUsed ≤ limits.maxMemory) (hev : Evictable limits now item) :
    (s.cull (evicts limits now) id).trie.get? id = none ∧
      (s.cull (evicts limits now) id).counters.memoryUsed =
        s.counters.memoryUsed - item.footprint := by
  have hdoomed : evicts limits now s.counters item = true := decide_eq_true ⟨hover, hev⟩
  have hcull : s.cull (evicts limits now) id = s.destroyAt id := by
    simp only [cull, hget, hdoomed, if_true]
  rw [hcull, destroyAt_trie, destroyAt_counters, hget]
  exact ⟨Trie.get?_swap_self (Trie.lt_nodeCount_of_get? hget), rfl⟩

/-- **What a sweep does along a walk** that meets no node twice can be told
from the members on it. -/
theorem foldl_evict (limits : StoreLimits) (now : Int) {steps : List Trie.Step}
    (hnodup : (steps.map Trie.Step.id).Nodup) (hs : s.Sound) (report : SweepReport) :
    let s' := (steps.map Trie.Step.id).foldl (cull (evicts limits now)) s
    Evicted limits now (s.trie.held steps) (s'.trie.held steps) s.counters.memoryUsed
      s'.counters.memoryUsed report
      (steps.foldl (Trie.visitOne (evictVisitor limits now)) (s.trie, report, s.counters)).2.1 := by
  induction steps generalizing s report with
  | nil => exact ⟨rfl, rfl, rfl⟩
  | cons step steps ih =>
    obtain ⟨hout, hrest⟩ := List.nodup_cons.1 hnodup
    -- the nodes to come hold what they held, and the node met now stays as it is left
    have hlater : (s.cull (evicts limits now) step.id).trie.held steps = s.trie.held steps :=
      Trie.held_congr fun next hnext =>
        (get?_cull _ s step.id next.id).resolve_right fun h =>
          hout (h.1 ▸ List.mem_map_of_mem hnext)
    have hstays := get?_foldl_cull_of_not_mem (evicts limits now) hout
      (s.cull (evicts limits now) step.id)
    have hnext := ih hrest (upholds_cull (evicts limits now) hs step.id).sound
      (evictVisitor limits now step.id (s.trie.get? step.id) (report, s.counters)).2.1
    rw [hlater] at hnext
    simp only [List.map_cons, List.foldl_cons, visitOne_eq_cull (culls_evicts limits now)]
    cases hget : s.trie.get? step.id with
    | none =>
      have hsame : s.cull (evicts limits now) step.id = s := by simp only [cull, hget]
      rw [hsame] at hstays hnext ⊢
      rw [Trie.held_cons_none hget, Trie.held_cons_none (hstays.trans hget)]
      rw [hget] at hnext
      exact hnext
    | some item =>
      rw [hget] at hnext
      rw [Trie.held_cons_some hget]
      by_cases hle : s.counters.memoryUsed ≤ limits.maxMemory
      · rw [cull_evicts_of_spared hget (.inl hle)] at hstays hnext ⊢
        rw [Trie.held_cons_some (hstays.trans hget)]
        simp only [evictVisitor, if_pos hle] at hnext ⊢
        exact hnext.pass hle
      · by_cases hev : Evictable limits now item
        · obtain ⟨hgone, hused⟩ := cull_evicts_of_doomed hget hle hev
          rw [Trie.held_cons_none (hstays.trans hgone)]
          simp only [evictVisitor, if_neg hle, if_pos hev, hused] at hnext ⊢
          exact hnext.destroy hle (decide_eq_true hev) (hs.covers hget).2.2
        · rw [cull_evicts_of_spared hget (.inr hev)] at hstays hnext ⊢
          rw [Trie.held_cons_some (hstays.trans hget)]
          simp only [evictVisitor, if_neg hle, if_neg hev] at hnext ⊢
          exact hnext.spare hle (decide_eq_false hev)

/-- **A sweep under memory pressure** does what can be told from the members
of the trie. -/
theorem evicted_memorySweep (hs : s.Sound) :
    Evicted s.limits s.now (s.trie.search []) (s.memorySweep.2.trie.search [])
      s.counters.memoryUsed s.memorySweep.2.counters.memoryUsed {} s.memorySweep.1 := by
  by_cases hover : s.OverBudget
  · have hroot := hs.arranged.root_lt
    have hsame := Trie.subtree_congr hs.arranged (sameGround_memorySweep s).shape hroot
    have hfold := foldl_evict s.limits s.now (Trie.nodup_subtree hs.arranged hroot) hs {}
    rw [Trie.search_nil, Trie.search_nil, ← hsame]
    rw [memorySweep, if_pos hover, sweep_snd (culls_evicts s.limits s.now)]
    exact hfold
  · rw [memorySweep, if_neg hover]
    have hle : s.counters.memoryUsed ≤ s.limits.maxMemory := Nat.le_of_not_lt hover
    constructor <;> rw [inspected_of_le hle] <;> rfl

/-- What is left of a list without a key twice are the members with other
keys than those taken away. -/
theorem mem_left_iff {members gone left : List (Bytes × Item)}
    (hsplit : members.Perm (gone ++ left)) (hnodup : (members.map Prod.fst).Nodup) {key : Bytes}
    {item : Item} :
    (key, item) ∈ left ↔ (key, item) ∈ members ∧ key ∉ gone.map Prod.fst := by
  have hkeys : (gone.map Prod.fst ++ left.map Prod.fst).Nodup := by
    rw [← List.map_append]
    exact (hsplit.map Prod.fst).nodup_iff.1 hnodup
  rw [hsplit.mem_iff, List.mem_append]
  constructor
  · intro hleft
    refine ⟨.inr hleft, fun hgone => ?_⟩
    exact List.disjoint_of_nodup_append hkeys hgone (List.mem_map_of_mem hleft)
  · rintro ⟨hgone | hleft, hout⟩
    · exact absurd (List.mem_map_of_mem hgone) hout
    · exact hleft

/-- What a sweep looks at and destroys, and what it leaves, are all the
members there were. -/
theorem Evicted.perm {members left : List (Bytes × Item)} {used used' : Nat}
    {report report' : SweepReport}
    (h : Evicted limits now members left used used' report report') :
    members.Perm ((inspected limits now used members).filter (evictable limits now) ++ left) := by
  have hwhole :=
    List.prefix_iff_eq_append.1 (isShortest_inspected limits now used members).beginning
  rw [h.left_eq, ← List.append_assoc]
  conv_lhs => rw [← hwhole]
  exact (List.filter_append_perm _ _).symm.append_right _

/-- By its times the item may be evicted: it is unlocked, and its time to live
is over or it is stale. -/
def EvictableByTimes (limits : StoreLimits) (now : Int) (item : Item) : Prop :=
  ¬ (item.lock = Item.permanentLock ∨ 0 < item.lock ∧ now - item.touchedAt < item.lock) ∧
    ((0 < item.ttl ∧ item.ttl ≤ now - item.touchedAt) ∨
      limits.staleAfter ≤ now - item.lastAccess)

instance (limits : StoreLimits) (now : Int) (item : Item) :
    Decidable (EvictableByTimes limits now item) :=
  inferInstanceAs (Decidable (_ ∧ _))

/-- **In range, the times say what may be evicted.** -/
theorem evictable_iff_byTimes {limits : StoreLimits} {now : Int} {item : Item}
    (hage : FitsInt64 (now - item.touchedAt)) (hidle : FitsInt64 (now - item.lastAccess)) :
    Evictable limits now item ↔ EvictableByTimes limits now item := by
  replace hage : item.age now = now - item.touchedAt := Item.age_of_fits hage
  replace hidle : item.idle now = now - item.lastAccess := Item.idle_of_fits hidle
  rw [Evictable, EvictableByTimes, Item.Lapsed, Item.Locked, Item.Elapsed, hage, hidle]
  -- an item that is not locked has lapsed when its time is over
  exact and_congr_right fun hfree => or_congr_left (and_iff_left hfree)

/-- **Eviction is exact and minimal.** Whatever has been done to a store,
a sweep under memory pressure changes nothing and reports nothing while the
memory is within the budget. Otherwise it meets the members in the order of
a walk, the shortest beginning of them that has enough to evict, and
destroys the evictable ones among these: the shortest beginning of the
evictable members that weighs enough, or all of them if none does. It
reports how many members it met and how many it destroyed; every other key
keeps its item as it was; the memory of what is gone is free again; and
either the budget is met then, or nothing evictable is left. An item is
evictable just when its times say so, if the time since its windows began
and the time since it was last used fit in a signed word. -/
theorem eviction_is_minimal (limits : StoreLimits) (start : Int) (ops : List Operation) :
    let s := (empty limits start).after ops
    let s' := s.memorySweep.2
    let used := s.counters.memoryUsed
    let members := s.trie.search []
    (used ≤ s.limits.maxMemory → s.memorySweep = ({ scanned := 0, freed := 0 }, s)) ∧
    ∃ met gone : List (Bytes × Item),
      IsShortest (fun met => used - footprints (met.filter (evictable s.limits s.now)) ≤
        s.limits.maxMemory) members met ∧
      IsShortest (fun gone => used - footprints gone ≤ s.limits.maxMemory)
        (members.filter (evictable s.limits s.now)) gone ∧
      s.memorySweep.1 = { scanned := met.length, freed := gone.length } ∧
      (∀ key, s'.trie.find? key =
        if key ∈ gone.map Prod.fst then none else s.trie.find? key) ∧
      s'.counters.memoryUsed + footprints gone = used ∧
      s.SameGround s' ∧
      (s'.counters.memoryUsed ≤ s.limits.maxMemory ∨
        ∀ key item, s'.trie.find? key = some item → ¬ Evictable s.limits s.now item) ∧
      ∀ key item, s.trie.find? key = some item →
        FitsInt64 (s.now - item.touchedAt) → FitsInt64 (s.now - item.lastAccess) →
        (Evictable s.limits s.now item ↔ EvictableByTimes s.limits s.now item) := by
  intro s s' used members
  have hs : s.Sound := ((Reached.empty limits start).after fun _ _ => trivial : s.Reachable).sound
  have hs' : s'.Sound := (upholds_memorySweep hs).sound
  have hevicted : Evicted s.limits s.now members (s'.trie.search []) used
      s'.counters.memoryUsed {} s.memorySweep.1 := evicted_memorySweep hs
  have hseen := isShortest_inspected s.limits s.now used members
  have hmemory := hevicted.memory
  have hlisted (t : Store) (ht : t.Sound) (key : Bytes) (item : Item) :
      (key, item) ∈ t.trie.search [] ↔ t.trie.find? key = some item :=
    (Trie.mem_search ht.arranged).trans (and_iff_right List.nil_prefix)
  refine ⟨fun hle => if_neg (Nat.not_lt.2 hle), _, _, hseen, hseen.filter, ?_, ?_, hmemory,
    sameGround_memorySweep s, ?_, fun _ _ _ => evictable_iff_byTimes⟩
  · rw [hevicted.report_eq, Nat.zero_add, Nat.zero_add]
  · intro key
    have hnodup : (members.map Prod.fst).Nodup := by
      rw [Trie.map_fst_search]
      exact Trie.nodup_map_fst_searchNodes hs.arranged []
    ext item
    rw [← hlisted s' hs', mem_left_iff hevicted.perm hnodup, hlisted s hs]
    split
    · next hgone => simp [hgone]
    · next hstays => simp [hstays]
  · rcases hseen.enough with henough | hall
    · exact .inl (Nat.le_trans (Nat.le_sub_of_add_le (Nat.le_of_eq hmemory)) henough)
    · refine .inr fun key item hf hev => ?_
      have hmem := (hlisted s' hs' key item).2 hf
      rw [hevicted.left_eq, hall, List.drop_length, List.append_nil, List.mem_filter] at hmem
      simp [evictable, hev] at hmem

/-- **A wrapped time spares an item**: stored at the first time there is, it is
left by a sweep under memory pressure at the last, and the budget is not
met. -/
theorem wrapped_item_is_spared :
    let s := (empty { maxMemory := 1 } (-9223372036854775808)).after
      [.onKey [107] (.set [118] (-1)), .setClock 9223372036854775807]
    s.Reachable ∧ s.OverBudget ∧
      (∃ item, s.trie.find? [107] = some item ∧ EvictableByTimes s.limits s.now item ∧
        s.memorySweep.2.trie.find? [107] = some item) ∧
      s.memorySweep.1 = { scanned := 1, freed := 0 } ∧ s.memorySweep.2.OverBudget :=
  ⟨Reached.after (.empty _ _) fun _ _ => trivial, by decide +kernel,
    ⟨Item.create (.plain [118]) (-1) (-9223372036854775808), by decide +kernel, by decide +kernel,
      by decide +kernel⟩,
    by decide +kernel, by decide +kernel⟩

end Store

end PrefixCache

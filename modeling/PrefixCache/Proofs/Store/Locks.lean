import PrefixCache.Proofs.Store.Keyed
/-!
# Locks

A lock holds against everything but its removal. Plans that write are
guarded: at a locked item they answer so and keep it (`Plan.Guarded`).
What is brought in goes around a locked item, and no sweep dooms one. So
a locked item is still there after any operation that does not open it
(`locked_item_stays`).
-/

namespace PrefixCache

/-! ## Guarded plans -/

namespace Plan

variable {β : Type}

/-- The plan is refused at a locked item. -/
def Guarded (p : Plan β) : Prop :=
  ∀ (limits : StoreLimits) (now : Int) (item : Item), item.Locked now →
    p limits now item = (.error .locked, .keep)

theorem guarded_unlessLocked (p : Plan β) : p.unlessLocked.Guarded :=
  fun _ _ _ h => if_pos h

/-- A guarded plan leaves a locked item. -/
theorem Guarded.slot_eq {p : Plan β} (h : p.Guarded) (limits : StoreLimits) {now : Int}
    {item : Item} (hl : item.Locked now) :
    (p limits now item).2.slot limits now item = some item := by
  rw [h limits now item hl]
  rfl

theorem guarded_add (delta : Int64) : (add delta).Guarded := guarded_unlessLocked _

end Plan

/-- The operation writes, and is refused under a lock. -/
def KeyOperation.Writes : KeyOperation → Prop
  | set _ _ | del | setTtl _ | add _ | lock _ => True
  | get | unlock | ask _ => False

instance : (op : KeyOperation) → Decidable op.Writes
  | .set _ _ | .del | .setTtl _ | .add _ | .lock _ => instDecidableTrue
  | .get | .unlock | .ask _ => instDecidableFalse

/-- The operation writes, and is refused under a lock. -/
def StemOperation.Writes : StemOperation → Prop
  | set _ | del | setTtl _ | add _ | lock _ => True
  | get | unlock | count | keys => False

instance : (op : StemOperation) → Decidable op.Writes
  | .set _ | .del | .setTtl _ | .add _ | .lock _ => instDecidableTrue
  | .get | .unlock | .count | .keys => instDecidableFalse

theorem KeyOperation.guarded {op : KeyOperation} {r : KeyReading} (h : op.reading? = some r)
    (hw : op.Writes) : r.plan.Guarded := by
  cases op <;> cases h <;> first | exact Plan.guarded_unlessLocked _ | exact hw.elim

theorem StemOperation.guarded {op : StemOperation} (hw : op.Writes) (s : Store) :
    (op.reading s).plan.Guarded := by
  cases op <;> first | exact Plan.guarded_unlessLocked _ | exact hw.elim

/-- What an operation on a key leaves of a locked item. -/
theorem KeyOperation.slot_of_locked {op : KeyOperation} {r : KeyReading}
    (h : op.reading? = some r) (hop : op ≠ .unlock) (limits : StoreLimits) {now : Int}
    {item : Item} (hl : item.Locked now) :
    (r.plan limits now item).2.slot limits now item =
      some (if op = .get then item.touch now else item) := by
  by_cases hw : op.Writes
  · have hget : op ≠ .get := by
      rintro rfl
      exact hw
    rw [(guarded h hw).slot_eq limits hl, if_neg hget]
  · cases op with
    | get => cases h; rfl
    | ask a => cases h; rfl
    | unlock => exact absurd rfl hop
    | _ => exact absurd trivial hw

/-- What an operation on a stem leaves of a locked item. -/
theorem StemOperation.slot_of_locked {op : StemOperation} (s : Store) (hop : op ≠ .unlock)
    (limits : StoreLimits) {now : Int} {item : Item} (hl : item.Locked now) :
    ((op.reading s).plan limits now item).2.slot limits now item =
      some (if op = .get then item.touch now else item) := by
  by_cases hw : op.Writes
  · have hget : op ≠ .get := by
      rintro rfl
      exact hw
    rw [(guarded hw s).slot_eq limits hl, if_neg hget]
  · cases op with
    | unlock => exact absurd rfl hop
    | get => rfl
    | count => rfl
    | keys => rfl
    | _ => exact absurd trivial hw

/-! ## Locked items stay -/

section Locked

variable {s : Store} {key : Bytes} {item : Item}

theorem Store.liveUnder?_of_locked (hf : s.trie.find? key = some item) (hl : item.Locked s.now) :
    s.liveUnder? key = some item :=
  Store.liveUnder?_eq_some.2 ⟨hf, Item.not_lapsed_of_locked hl⟩

/-- **A guarded plan is refused under a lock**, and nothing changes. -/
theorem Store.onKey_of_locked {β : Type} {p : Plan β} (hp : p.Guarded)
    (hf : s.trie.find? key = some item) (hl : item.Locked s.now) :
    s.onKey key p.act = (.error .locked, s) := by
  obtain ⟨id, hid, hitem⟩ := Option.bind_eq_some_iff.1 (liveUnder?_of_locked hf hl)
  rw [onKey, hid]
  simp only [onNode_of_some hitem, Plan.act, hp s.limits s.now item hl]
  rfl

theorem Store.add_of_locked (hf : s.trie.find? key = some item) (hl : item.Locked s.now)
    (delta : Int64) : s.add key delta = (.error .locked, s) := by
  rw [add_of_some (liveUnder?_of_locked hf hl), onKey_of_locked (Plan.guarded_add delta) hf hl]

/-- **Writing to a locked key is refused**, unless the budget refuses it
first. -/
theorem KeyOperation.run_of_locked (hf : s.trie.find? key = some item) (hl : item.Locked s.now)
    {op : KeyOperation} (hw : op.Writes) :
    op.run key s = (.error .locked, s) ∨
      (op.Stores ∧ s.OverBudget ∧ op.run key s = (.error .outOfMemory, s)) := by
  cases hr : op.reading? with
  | some r =>
    rw [run_eq hr, Store.onKey_of_locked (guarded hr hw) hf hl]
    exact .inl rfl
  | none =>
    cases op with
    | set data ttl =>
      by_cases hover : s.OverBudget
      · refine .inr ⟨trivial, hover, ?_⟩
        rw [run, Store.set_of_overBudget hover]
        rfl
      · rw [run, Store.set_of_barred hover ⟨item, hf, hl⟩]
        exact .inl rfl
    | add delta =>
      rw [run, Store.add_of_locked hf hl]
      exact .inl rfl
    | _ => cases hr

theorem Store.find?_set_of_locked (hs : s.Sound) (hf : s.trie.find? key = some item)
    (hl : item.Locked s.now) (target data : Bytes) (ttl : Int) :
    (s.set target data ttl).2.trie.find? key = some item := by
  by_cases hover : s.OverBudget
  · rw [set_of_overBudget hover, hf]
  by_cases hb : s.Barred target
  · rw [set_of_barred hover hb, hf]
  · have hne : target ≠ key := by
      rintro rfl
      exact hb ⟨item, hf, hl⟩
    rw [find?_set hs.arranged hover hb, if_neg hne, hf]

theorem KeyOperation.find?_run_of_locked (hs : s.Sound) (hf : s.trie.find? key = some item)
    (hl : item.Locked s.now) {op : KeyOperation} {target : Bytes}
    (hop : op = .unlock → target ≠ key) :
    (op.run target s).2.trie.find? key =
      some (if op = .get ∧ target = key then item.touch s.now else item) := by
  have hlive := Store.liveUnder?_of_locked hf hl
  cases hr : op.reading? with
  | some r =>
    rw [run_eq hr]
    simp only [Outcome.map, Store.find?_onKey hs.arranged]
    by_cases hk : target = key
    · have hslot := slot_of_locked hr (fun h => hop h hk) s.limits hl
      rw [if_pos hk, Plan.leavesUnder, hlive, Option.bind_some, hslot]
      simp [hk]
    · rw [if_neg hk, if_neg fun h => hk h.2, hf]
  | none =>
    cases op with
    | set data ttl => exact Store.find?_set_of_locked hs hf hl target data ttl
    | add delta =>
      simp only [run, Outcome.map]
      by_cases hk : target = key
      · have hne : ¬ (KeyOperation.add delta = .get ∧ target = key) := by simp
        rw [hk] at hne ⊢
        rw [Store.add_of_locked hf hl, hf, if_neg hne]
      · rw [Store.find?_add hs.arranged, if_neg hk, hf, if_neg fun h => hk h.2]
    | _ => cases hr

theorem StemOperation.find?_run_of_locked (hs : s.Sound) (hf : s.trie.find? key = some item)
    (hl : item.Locked s.now) {op : StemOperation} {stem : Bytes}
    (hop : op = .unlock → ¬ stem <+: key) :
    (op.run stem s).2.trie.find? key =
      some (if op = .get ∧ stem <+: key then item.touch s.now else item) := by
  have hlive := Store.liveUnder?_of_locked hf hl
  by_cases hover : op.Stores ∧ s.OverBudget
  · rw [run_of_overBudget hover.1 hover.2, hf, if_neg]
    rintro ⟨rfl, -⟩
    exact hover.1
  · rw [run_eq fun h ho => hover ⟨h, ho⟩]
    simp only [Outcome.map, Store.find?_onStem hs.arranged]
    by_cases hk : stem <+: key
    · have hslot := slot_of_locked s (fun h => hop h hk) s.limits hl
      rw [if_pos hk, Plan.leavesUnder, hlive, Option.bind_some, hslot]
      simp [hk]
    · rw [if_neg hk, if_neg fun h => hk h.2, hf]

/-- The operation opens the item under a key: it takes the lock off, or
destroys everything. -/
def Operation.Opens (key : Bytes) : Operation → Prop
  | onKey target op => op = .unlock ∧ target = key
  | onStem stem op => op = .unlock ∧ stem <+: key
  | destroyAll => True
  | _ => False

/-- The operation reads the item under a key. -/
def Operation.Reads (key : Bytes) : Operation → Prop
  | onKey target op => op = .get ∧ target = key
  | onStem stem op => op = .get ∧ stem <+: key
  | _ => False

/-- A sweep that never dooms an item leaves it under its key. -/
theorem Store.find?_foldl_cull_of_spared {doomed : Counters → Item → Bool} (hs : s.Sound)
    (hf : s.trie.find? key = some item) (hspared : ∀ c, doomed c item = false)
    (ids : List NodeId) : (ids.foldl (cull doomed) s).trie.find? key = some item := by
  obtain ⟨id, hid, hget⟩ := Trie.find?_eq_some.1 hf
  rw [(sameGround_foldl_cull doomed ids s).find?_eq hs.arranged, hid, Option.bind_some,
    get?_foldl_cull_of_spared hspared hget]

/-- **What may not be evicted is left** by a sweep under memory pressure. -/
theorem Store.find?_memorySweep (hs : s.Sound) (hf : s.trie.find? key = some item)
    (hspared : ¬ Evictable s.limits s.now item) :
    s.memorySweep.2.trie.find? key = some item := by
  unfold memorySweep
  split
  · rw [sweep_snd (culls_evictVisitor s.limits s.now)]
    exact find?_foldl_cull_of_spared hs hf (fun c => decide_eq_false fun h => hspared h.2) _
  · exact hf

/-- **A locked item stays**, whatever is done that does not open it. Only
reading it leaves a trace, the time of the access. -/
theorem Operation.find?_run_of_locked (hs : s.Sound) (hf : s.trie.find? key = some item)
    (hl : item.Locked s.now) {op : Operation} (hop : ¬ op.Opens key) :
    (op.run s).2.trie.find? key = some item ∨
      (op.Reads key ∧
        (op.run s).2.trie.find? key = some { item with lastAccess := s.now }) := by
  cases op with
  | onKey target op =>
    have hrun := KeyOperation.find?_run_of_locked hs hf hl fun h hk => hop ⟨h, hk⟩
    by_cases hr : op = .get ∧ target = key
    · exact .inr ⟨hr, hrun.trans (congrArg some (if_pos hr))⟩
    · exact .inl (hrun.trans (congrArg some (if_neg hr)))
  | onStem stem op =>
    have hrun := StemOperation.find?_run_of_locked hs hf hl fun h hk => hop ⟨h, hk⟩
    by_cases hr : op = .get ∧ stem <+: key
    · exact .inr ⟨hr, hrun.trans (congrArg some (if_pos hr))⟩
    · exact .inl (hrun.trans (congrArg some (if_neg hr)))
  | check id =>
    refine .inl ((Store.find?_liveAt hs.arranged id key).trans ?_)
    split
    · exact Store.liveUnder?_of_locked hf hl
    · exact hf
  | expireSweep =>
    exact .inl ((Store.find?_expireSweep hs.arranged key).trans (Store.liveUnder?_of_locked hf hl))
  | memorySweep => exact .inl (Store.find?_memorySweep hs hf fun hev => hev.1 hl)
  | destroyAll => exact absurd trivial hop
  | setClock now => exact .inl hf
  | note figures => exact .inl hf

end Locked

/-! ## What writing to members counts -/

/-- An item that a writing operation succeeds on: it is live and unlocked,
and a number if it is added to. -/
def StemOperation.takes (op : StemOperation) (now : Int) (item : Item) : Bool :=
  decide (¬ item.Lapsed now ∧ ¬ item.Locked now) &&
    match op with
    | add _ => item.value.asNumber?.isSome
    | _ => true

theorem StemOperation.isSome_given {op : StemOperation} (hw : op.Writes) (s : Store)
    (m : Bytes × Item) : ((op.reading s).plan.given s m).isSome = op.takes s.now m.2 := by
  by_cases hlapsed : m.2.Lapsed s.now
  · simp [Plan.given, takes, hlapsed]
  by_cases hl : m.2.Locked s.now
  · simp [Plan.given, takes, hlapsed, hl, guarded hw s s.limits s.now m.2 hl, Except.toOption]
  cases op with
  | add delta =>
    cases hn : m.2.value.asNumber? <;>
      simp [Plan.given, takes, hlapsed, hl, hn, reading, Plan.add, Plan.unlessLocked,
        Except.toOption]
  | get => exact hw.elim
  | unlock => exact hw.elim
  | count => exact hw.elim
  | keys => exact hw.elim
  | _ =>
    simp [Plan.given, takes, hlapsed, hl, reading, Plan.replace, Plan.delete, Plan.live, Plan.lock,
      Plan.revise, Plan.unlessLocked, Except.toOption]

/-- **What writing to all members of a stem counts**: the items it takes. -/
theorem StemOperation.run_of_writes {s : Store} (hs : s.Sound) {op : StemOperation}
    (hw : op.Writes) {stem : Bytes} {a : Answer} (h : (op.run stem s).1 = .ok a) :
    a = .count ((s.trie.search stem).countP fun m => op.takes s.now m.2) := by
  -- there is an answer, so the budget has not refused
  have hfits : op.Stores → ¬ s.OverBudget := by
    intro hstores hover
    rw [run_of_overBudget hstores hover] at h
    cases h
  rw [run_eq hfits] at h
  by_cases hnil : s.trie.searchNodes stem = []
  · rw [Store.onStem_of_nil hnil] at h
    cases h
  · simp only [Outcome.map, Store.onStem_fst _ hs.arranged hnil] at h
    have hanswer : ∀ given, (op.reading s).answer given = .count given.length := by
      cases op <;> first | exact fun _ => rfl | exact hw.elim
    obtain rfl := Except.ok.inj h
    rw [hanswer, Plan.filterMap_gives, List.length_filterMap_eq_countP]
    exact congrArg Answer.count (List.countP_congr fun m _ => by rw [isSome_given hw])

/-! ## The law of locks -/

/-- **Locks win.** In a store that some run leads to, an item locked at the
clock stays under its key, with its value, its times, its time to live and
its lock, whatever is done that does not open it; at most the time of the
last access changes, and that only by reading it. Writing to its key is
refused, and what writing to all members of a stem counts are other
members. -/
theorem locked_item_stays {s : Store} (hs : s.Reachable) {key : Bytes} {item : Item}
    (hf : s.trie.find? key = some item) (hl : item.Locked s.now) :
    (∀ op : Operation, ¬ op.Opens key →
      (op.run s).2.trie.find? key = some item ∨
        (op.Reads key ∧
          (op.run s).2.trie.find? key = some { item with lastAccess := s.now })) ∧
    (∀ op : KeyOperation, op.Writes →
      (op.run key s).1 = .error .locked ∨
        (op.Stores ∧ (op.run key s).1 = .error .outOfMemory)) ∧
    (∀ (op : StemOperation) (stem : Bytes) (a : Answer), op.Writes →
      (op.run stem s).1 = .ok a →
        a = .count ((s.trie.search stem).countP fun m => m.1 ≠ key ∧ op.takes s.now m.2)) := by
  refine ⟨fun op hop => Operation.find?_run_of_locked hs.sound hf hl hop, fun op hw => ?_,
    fun op stem a hw h => ?_⟩
  · rcases KeyOperation.run_of_locked hf hl hw with hlocked | ⟨hstores, -, hmemory⟩
    · exact .inl (congrArg Prod.fst hlocked)
    · exact .inr ⟨hstores, congrArg Prod.fst hmemory⟩
  · rw [StemOperation.run_of_writes hs.sound hw h]
    -- the locked item is the only one under its key, and it is not taken
    refine congrArg Answer.count (List.countP_congr fun m hm => ?_)
    have hne : op.takes s.now m.2 → m.1 ≠ key := by
      rintro htakes rfl
      have hitem := ((Trie.mem_search hs.sound.arranged).1 hm).2
      obtain rfl := Option.some.inj (hf.symm.trans hitem)
      exact (of_decide_eq_true (Bool.and_eq_true_iff.1 htakes).1).2 hl
    simpa using hne

/-- A store with an item that a timed lock holds beyond its time to live. -/
def Store.pinned : Store :=
  (Store.empty {} 100).after
    [.onKey [97] (.set [1] 2), .onKey [97] (.lock 5), .setClock 103]

/-- The item in `Store.pinned`. -/
def Item.pinned : Item :=
  { value := .plain [1], createdAt := 100, touchedAt := 100, lastAccess := 100, ttl := 2, lock := 5 }

theorem pinned_item_stays :
    Store.pinned.Reachable ∧ Store.pinned.trie.find? [97] = some Item.pinned ∧
      Item.pinned.Elapsed Store.pinned.now ∧ Item.pinned.Locked Store.pinned.now ∧
      (Operation.expireSweep.run Store.pinned).2.trie.find? [97] = some Item.pinned ∧
      ((KeyOperation.set [2] 9).run [97] Store.pinned).1 = .error .locked := by
  have hs : Store.pinned.Reachable := Store.Reached.after (.empty {} 100) fun _ _ => trivial
  have hf : Store.pinned.trie.find? [97] = some Item.pinned := by decide
  have hl : Item.pinned.Locked Store.pinned.now := by decide
  obtain ⟨hstays, hrefused, -⟩ := locked_item_stays hs hf hl
  refine ⟨hs, hf, by decide, hl, ?_, ?_⟩
  · exact (hstays .expireSweep id).resolve_right fun h => h.1
  · refine (hrefused (.set [2] 9) trivial).resolve_right fun h => ?_
    exact absurd h.2 (by decide)

end PrefixCache

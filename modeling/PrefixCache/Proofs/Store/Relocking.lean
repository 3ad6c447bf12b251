import PrefixCache.Proofs.Store.Locks
/-!
# Locks that are off

An item is unlocked when its lock was taken off, or when the seconds of a
timed lock are over. Such an item is locked again by locking it; nothing
else sets a lock. But the seconds of a lock count from the same time as
those of the time to live, and a new time to live starts both over. So of
all operations that do not lock, just these bring a lock back, and only one
whose seconds were over (`unlocked_item_stays_unlocked`). One that was taken
off stays off under all of them.

Moving the clock forward keeps a lock off while the age of the item fits in
a signed word. When it does not, the age wraps, and the seconds of the lock
are not over any more (`time_brings_lock_back`).
-/

namespace PrefixCache

/-! ## Items -/

namespace Item

variable {item : Item} {now now' : Int}

theorem not_locked_of_lock_eq_zero (h : item.lock = 0) : ¬ item.Locked now := by
  rintro (hgood | ⟨hpos, -⟩)
  · rw [h] at hgood
    cases hgood
  · omega

/-- A lock that is off at a time is off at any later one, if the ages of the
item at both fit. -/
theorem not_locked_later (h : ¬ item.Locked now) (hle : now ≤ now')
    (hfits : FitsInt64 (now - item.touchedAt)) (hfits' : FitsInt64 (now' - item.touchedAt)) :
    ¬ item.Locked now' := by
  rintro (hgood | ⟨hpos, hheld⟩)
  · exact h (.inl hgood)
  · have hage : item.age now = now - item.touchedAt := age_of_fits hfits
    have hage' : item.age now' = now' - item.touchedAt := age_of_fits hfits'
    exact h (.inr ⟨hpos, by omega⟩)

@[simp] theorem age_restart (item : Item) (now : Int) : (item.restart now).age now = 0 := by
  have hnone : now - now = 0 := Int.sub_self now
  simp only [age, restart, hnone]
  decide

/-- **Starting the seconds over brings a timed lock back**, of an item that
is not locked. -/
theorem locked_restart_iff (h : ¬ item.Locked now) :
    (item.restart now).Locked now ↔ 0 < item.lock := by
  constructor
  · rintro (hgood | ⟨hpos, -⟩)
    · exact absurd (.inl hgood) h
    · exact hpos
  · intro hpos
    refine .inr ⟨hpos, ?_⟩
    rw [age_restart]
    exact hpos

end Item

/-! ## Plans -/

namespace Plan

variable {β : Type}

/-- What the plan leaves of an unlocked item is locked just if `again` says
so of the item. -/
def Relocks (p : Plan β) (again : Item → Prop) : Prop :=
  ∀ (limits : StoreLimits) (now : Int) (item new : Item), ¬ item.Locked now →
    (p limits now item).2.slot limits now item = some new → (new.Locked now ↔ again item)

variable {p : Plan β} {again : Item → Prop}

theorem Relocks.unlessLocked (h : p.Relocks again) : p.unlessLocked.Relocks again := by
  intro limits now item new hfree hnew
  rw [Plan.unlessLocked, if_neg hfree] at hnew
  exact h limits now item new hfree hnew

theorem relocks_revise {change : StoreLimits → Int → Item → Item}
    (h : ∀ limits now item, ¬ item.Locked now →
      ((change limits now item).Locked now ↔ again item)) : (revise change).Relocks again := by
  intro limits now item new hfree hnew
  obtain rfl := Option.some.inj hnew
  exact h limits now item hfree

theorem relocks_of_keep (h : ∀ limits now item, (p limits now item).2 = .keep) :
    p.Relocks fun _ => False := by
  intro limits now item new hfree hnew
  rw [h] at hnew
  obtain rfl := Option.some.inj hnew
  exact iff_false_intro hfree

theorem relocks_read : read.Relocks fun _ => False := by
  intro limits now item new hfree hnew
  obtain rfl := Option.some.inj hnew
  exact iff_false_intro hfree

theorem relocks_delete : delete.Relocks fun _ => False :=
  Relocks.unlessLocked fun _ _ _ _ _ hnew => nomatch hnew

/-- A new time to live starts the seconds of a lock over as well. -/
theorem relocks_live (ttl : Int) : (live ttl).Relocks fun item => 0 < item.lock := by
  refine Relocks.unlessLocked (relocks_revise fun limits now item hfree => ?_)
  have hrestart : (item.restart now).Locked now ↔ 0 < item.lock := Item.locked_restart_iff hfree
  exact hrestart

theorem relocks_unlock : unlock.Relocks fun _ => False :=
  relocks_revise fun _ _ _ _ => iff_false_intro (Item.not_locked_of_lock_eq_zero rfl)

theorem relocks_add (delta : Int64) : (add delta).Relocks fun _ => False := by
  refine Relocks.unlessLocked fun limits now item new hfree hnew => ?_
  cases hn : item.value.asNumber? with
  | none =>
    rw [hn] at hnew
    obtain rfl := Option.some.inj hnew
    exact iff_false_intro hfree
  | some n =>
    -- a sum keeps the lock and the time it counts from
    rw [hn] at hnew
    obtain rfl := Option.some.inj hnew
    exact iff_false_intro hfree

theorem relocks_replace (full : Nat) (value : Value) :
    (replace full value).Relocks fun _ => False := by
  refine Relocks.unlessLocked fun limits now item new _ hnew => ?_
  obtain rfl := Option.some.inj hnew
  exact iff_false_intro (Item.not_locked_of_lock_eq_zero rfl)

theorem Relocks.leavesUnder (hp : p.Relocks again) {s : Store} {key : Bytes} {item new : Item}
    (hf : s.trie.find? key = some item) (hfree : ¬ item.Locked s.now)
    (hnew : p.leavesUnder s key = some new) : new.Locked s.now ↔ again item := by
  obtain ⟨item', hlive, hslot⟩ := Option.bind_eq_some_iff.1 hnew
  obtain rfl := Option.some.inj (hf.symm.trans (Store.liveUnder?_eq_some.1 hlive).1)
  exact hp s.limits s.now item new hfree hslot

end Plan

/-! ## Operations -/

/-- The operation sets a lock. -/
def KeyOperation.Locks : KeyOperation → Prop
  | lock _ => True
  | _ => False

/-- The operation sets a lock. -/
def StemOperation.Locks : StemOperation → Prop
  | lock _ => True
  | _ => False

/-- The operation starts a new time to live. -/
def KeyOperation.Restarts : KeyOperation → Prop
  | setTtl _ => True
  | _ => False

/-- The operation starts a new time to live. -/
def StemOperation.Restarts : StemOperation → Prop
  | setTtl _ => True
  | _ => False

/-- The operation sets a lock on the item under a key. -/
def Operation.Locks (key : Bytes) : Operation → Prop
  | onKey target op => op.Locks ∧ target = key
  | onStem stem op => op.Locks ∧ stem <+: key
  | _ => False

/-- The operation starts a new time to live of the item under a key. -/
def Operation.Restarts (key : Bytes) : Operation → Prop
  | onKey target op => op.Restarts ∧ target = key
  | onStem stem op => op.Restarts ∧ stem <+: key
  | _ => False

theorem KeyOperation.relocks {op : KeyOperation} {r : KeyReading} (h : op.reading? = some r)
    (hop : ¬ op.Locks) : r.plan.Relocks fun item => op.Restarts ∧ 0 < item.lock := by
  cases op <;> cases h <;> simp only [Restarts, true_and, false_and]
  · exact Plan.relocks_read
  · exact Plan.relocks_delete
  · exact Plan.relocks_live _
  · exact absurd trivial hop
  · exact Plan.relocks_unlock
  · exact Plan.relocks_of_keep fun _ _ _ => rfl

theorem StemOperation.relocks {op : StemOperation} (hop : ¬ op.Locks) (s : Store) :
    (op.reading s).plan.Relocks fun item => op.Restarts ∧ 0 < item.lock := by
  cases op <;> simp only [Restarts, true_and, false_and]
  · exact Plan.relocks_replace _ _
  · exact Plan.relocks_read
  · exact Plan.relocks_delete
  · exact Plan.relocks_live _
  · exact Plan.relocks_add _
  · exact absurd trivial hop
  · exact Plan.relocks_unlock
  · exact Plan.relocks_of_keep fun _ _ _ => rfl
  · exact Plan.relocks_of_keep fun _ _ _ => rfl

section Unlocked

variable {s : Store} {key : Bytes} {item new : Item}

/-- What was there and is there still is not locked. -/
theorem Store.not_locked_of_same (hf : s.trie.find? key = some item) (hfree : ¬ item.Locked s.now)
    (hnew : s.trie.find? key = some new) : ¬ new.Locked s.now := by
  obtain rfl := Option.some.inj (hf.symm.trans hnew)
  exact hfree

theorem Store.not_locked_of_liveUnder? (hf : s.trie.find? key = some item)
    (hfree : ¬ item.Locked s.now) (hnew : s.liveUnder? key = some new) : ¬ new.Locked s.now :=
  not_locked_of_same hf hfree (liveUnder?_eq_some.1 hnew).1

theorem Store.not_locked_set (hs : s.trie.Arranged) (hf : s.trie.find? key = some item)
    (hfree : ¬ item.Locked s.now) {data : Bytes} {ttl : Int}
    (hnew : (s.set key data ttl).2.trie.find? key = some new) : ¬ new.Locked s.now := by
  by_cases hover : s.OverBudget
  · rw [set_of_overBudget hover] at hnew
    exact not_locked_of_same hf hfree hnew
  by_cases hb : s.Barred key
  · rw [set_of_barred hover hb] at hnew
    exact not_locked_of_same hf hfree hnew
  · rw [find?_set hs hover hb, if_pos rfl] at hnew
    obtain rfl := Option.some.inj hnew
    exact Item.not_locked_of_lock_eq_zero rfl

theorem Store.not_locked_add (hs : s.trie.Arranged) (hf : s.trie.find? key = some item)
    (hfree : ¬ item.Locked s.now) {delta : Int64}
    (hnew : (s.add key delta).2.trie.find? key = some new) : ¬ new.Locked s.now := by
  rw [find?_add hs, if_pos rfl] at hnew
  split at hnew
  · obtain rfl := Option.some.inj hnew
    exact Item.not_locked_of_lock_eq_zero rfl
  · exact ((Plan.relocks_add delta).leavesUnder hf hfree hnew).1

theorem KeyOperation.locked_run_iff (hs : s.trie.Arranged) (hf : s.trie.find? key = some item)
    (hfree : ¬ item.Locked s.now) {op : KeyOperation} {target : Bytes}
    (hop : ¬ (op.Locks ∧ target = key)) (hnew : (op.run target s).2.trie.find? key = some new) :
    new.Locked s.now ↔ (op.Restarts ∧ target = key) ∧ 0 < item.lock := by
  by_cases hk : target = key
  · subst hk
    simp only [and_true] at hop ⊢
    cases hr : op.reading? with
    | some r =>
      rw [run_eq hr] at hnew
      refine (relocks hr hop).leavesUnder hf hfree ?_
      exact ((Store.find?_onKey hs r.plan target target).trans (if_pos rfl)).symm.trans hnew
    | none =>
      cases op with
      | set data ttl => exact iff_of_false (Store.not_locked_set hs hf hfree hnew) fun h => h.1
      | add delta => exact iff_of_false (Store.not_locked_add hs hf hfree hnew) fun h => h.1
      | _ => cases hr
  · rw [find?_run_of_ne hs op hk] at hnew
    exact iff_of_false (Store.not_locked_of_same hf hfree hnew) fun h => hk h.1.2

theorem StemOperation.locked_run_iff (hs : s.trie.Arranged) (hf : s.trie.find? key = some item)
    (hfree : ¬ item.Locked s.now) {op : StemOperation} {stem : Bytes}
    (hop : ¬ (op.Locks ∧ stem <+: key)) (hnew : (op.run stem s).2.trie.find? key = some new) :
    new.Locked s.now ↔ (op.Restarts ∧ stem <+: key) ∧ 0 < item.lock := by
  by_cases hk : stem <+: key
  · simp only [hk, and_true] at hop ⊢
    by_cases hover : op.Stores ∧ s.OverBudget
    · -- only replacing is refused over the budget, and that starts no time to live
      rw [run_of_overBudget hover.1 hover.2] at hnew
      refine iff_of_false (Store.not_locked_of_same hf hfree hnew) fun h => ?_
      cases op <;> first | exact h.1 | exact hover.1
    · rw [run_eq fun h ho => hover ⟨h, ho⟩] at hnew
      refine (relocks hop s).leavesUnder hf hfree ?_
      exact ((Store.find?_onStem hs _ stem key).trans (if_pos hk)).symm.trans hnew
  · rw [find?_run_of_outside hs op hk] at hnew
    exact iff_of_false (Store.not_locked_of_same hf hfree hnew) fun h => hk h.1.2

/-- **When an unlocked item is locked after an operation.** -/
theorem Operation.locked_run_iff (hs : s.Sound) (hf : s.trie.find? key = some item)
    (hfree : ¬ item.Locked s.now) {op : Operation} (hop : ¬ op.Locks key)
    (hclock : ∀ now, op = .setClock now → s.now ≤ now ∧
      FitsInt64 (s.now - item.touchedAt) ∧ FitsInt64 (now - item.touchedAt))
    (hnew : (op.run s).2.trie.find? key = some new) :
    new.Locked (op.run s).2.now ↔ op.Restarts key ∧ 0 < item.lock := by
  cases op with
  | onKey target op =>
    simp only [run, KeyOperation.now_run]
    exact KeyOperation.locked_run_iff hs.arranged hf hfree hop hnew
  | onStem stem op =>
    simp only [run, StemOperation.now_run hs.arranged]
    exact StemOperation.locked_run_iff hs.arranged hf hfree hop hnew
  | check id =>
    have hnow : (s.liveAt id).2.now = s.now := (Store.sameGround_liveAt s id).now
    have hseen := (Store.find?_liveAt hs.arranged id key).symm.trans hnew
    simp only [run, Store.check, hnow]
    refine iff_of_false ?_ fun h => h.1
    split at hseen
    · exact Store.not_locked_of_liveUnder? hf hfree hseen
    · exact Store.not_locked_of_same hf hfree hseen
  | expireSweep =>
    simp only [run, (Store.sameGround_expireSweep s).now]
    have hseen := (Store.find?_expireSweep hs.arranged key).symm.trans hnew
    exact iff_of_false (Store.not_locked_of_liveUnder? hf hfree hseen) fun h => h.1
  | memorySweep =>
    simp only [run, (Store.sameGround_memorySweep s).now]
    have hseen := Store.find?_of_memorySweep hs.arranged hnew
    exact iff_of_false (Store.not_locked_of_same hf hfree hseen) fun h => h.1
  | destroyAll =>
    have hempty : s.destroyAll.2.trie = .empty := by rw [Store.destroyAll_snd]
    rw [run, hempty, Trie.find?_empty] at hnew
    cases hnew
  | setClock now =>
    obtain rfl := Option.some.inj (hf.symm.trans hnew)
    obtain ⟨hle, hfits, hfits'⟩ := hclock now rfl
    exact iff_of_false (Item.not_locked_later hfree hle hfits hfits') fun h => h.1
  | note figures => exact iff_of_false (Store.not_locked_of_same hf hfree hnew) fun h => h.1

end Unlocked

/-! ## The law of unlocked items -/

/-- **A lock that is off stays off, but for a new time to live.** In a store
that some run leads to, let an item be unlocked. Under an operation that
does not lock its key, nor turns the clock back, nor sets it to a time at
which the age of the item does not fit in a signed word, what the key holds
afterwards is locked just if the operation started a new time to live, and
the item had a timed lock whose seconds were over: these start over as
well. -/
theorem unlocked_item_stays_unlocked {s : Store} (hs : s.Reachable) {key : Bytes} {item : Item}
    (hf : s.trie.find? key = some item) (hfree : ¬ item.Locked s.now) {op : Operation}
    (hop : ¬ op.Locks key)
    (hclock : ∀ now, op = .setClock now → s.now ≤ now ∧
      FitsInt64 (s.now - item.touchedAt) ∧ FitsInt64 (now - item.touchedAt)) {new : Item}
    (hnew : (op.run s).2.trie.find? key = some new) :
    new.Locked (op.run s).2.now ↔ op.Restarts key ∧ 0 < item.lock :=
  Operation.locked_run_iff hs.sound hf hfree hop hclock hnew

/-- A store with an item whose lock of five seconds is over. -/
def Store.unpinned : Store :=
  (Store.empty {} 100).after
    [.onKey [97] (.set [1] (-1)), .onKey [97] (.lock 5), .setClock 105]

/-- The item in `Store.unpinned`. -/
def Item.unpinned : Item :=
  { value := .plain [1], createdAt := 100, touchedAt := 100, lastAccess := 100, ttl := -1, lock := 5 }

theorem unpinned_item_stays_unlocked :
    Store.unpinned.Reachable ∧ Store.unpinned.trie.find? [97] = some Item.unpinned ∧
      ¬ Item.unpinned.Locked Store.unpinned.now ∧
      (∃ new, ((Operation.onKey [97] (.set [2] 7)).run Store.unpinned).2.trie.find? [97] =
          some new ∧ ¬ new.Locked Store.unpinned.now) ∧
      ¬ Item.unpinned.Locked 1000 := by
  have hs : Store.unpinned.Reachable := Store.Reached.after (.empty {} 100) fun _ _ => trivial
  have hf : Store.unpinned.trie.find? [97] = some Item.unpinned := by decide
  have hfree : ¬ Item.unpinned.Locked Store.unpinned.now := by decide
  have hnew : ((Operation.onKey [97] (.set [2] 7)).run Store.unpinned).2.trie.find? [97] =
      some (Item.create (.plain [2]) 7 105) := by decide
  have hop : ¬ (Operation.onKey [97] (.set [2] 7)).Locks [97] := fun h => h.1
  have hlater : ((Operation.setClock 1000).run Store.unpinned).2.trie.find? [97] =
      some Item.unpinned := hf
  refine ⟨hs, hf, hfree, ⟨_, hnew, fun hlocked => ?_⟩, fun hlocked => ?_⟩
  · exact ((unlocked_item_stays_unlocked hs hf hfree hop (fun _ h => nomatch h) hnew).1 hlocked).1.1
  · refine ((unlocked_item_stays_unlocked hs hf hfree id ?_ hlater).1 hlocked).1
    rintro _ ⟨⟩
    decide

/-- **A new time to live brings a lock back** whose seconds were over. -/
theorem ttl_brings_lock_back :
    Store.unpinned.Reachable ∧ Store.unpinned.trie.find? [97] = some Item.unpinned ∧
      ¬ Item.unpinned.Locked Store.unpinned.now ∧
      ¬ (Operation.onKey [97] (.setTtl 50)).Locks [97] ∧
      ∃ new, ((Operation.onKey [97] (.setTtl 50)).run Store.unpinned).2.trie.find? [97] = some new ∧
        new.Locked ((Operation.onKey [97] (.setTtl 50)).run Store.unpinned).2.now :=
  ⟨Store.Reached.after (.empty {} 100) fun _ _ => trivial, by decide, by decide, fun h => h.1,
    { Item.unpinned with touchedAt := 105, lastAccess := 105, ttl := 50 }, by decide, by decide⟩

/-- A store with an item whose lock of five seconds was over long before the
epoch. -/
def Store.ancient : Store :=
  (Store.empty {} (-4611686018427387904)).after
    [.onKey [97] (.set [1] (-1)), .onKey [97] (.lock 5), .setClock (-4611686018427387899)]

/-- **Time alone brings a lock back** when the age of the item wraps: the
clock of `Store.ancient` moves on to the last time there is. -/
theorem time_brings_lock_back :
    let last := 9223372036854775807
    Store.ancient.Reachable ∧ Store.ancient.now ≤ last ∧
      ∃ item, Store.ancient.trie.find? [97] = some item ∧ ¬ item.Locked Store.ancient.now ∧
        ((Operation.setClock last).run Store.ancient).2.trie.find? [97] = some item ∧
        item.Locked last :=
  ⟨Store.Reached.after (.empty {} _) fun _ _ => trivial, by decide,
    { value := .plain [1], createdAt := -4611686018427387904, touchedAt := -4611686018427387904,
      lastAccess := -4611686018427387904, ttl := -1, lock := 5 },
    by decide, by decide, by decide, by decide⟩

end PrefixCache

import PrefixCache.Proofs.Store.Keyed
/-!
# What comes after an item

Whatever a store goes through, the item that a key holds afterwards came
from what the key held before in one of a few ways (`Item.Succeeds`): it is
the same item, one that was used, unlocked, added to, locked or granted a
new time to live, or a new item. Values come from the data of an operation
or are numbers, and a time to live from an operation that asks for it for
that key; an item that comes in without one lives for ever
(`Operation.succeeds_run`).
-/

namespace PrefixCache

/-! ## Items -/

/-- The second item may be under a key after the first, or after none: what
one operation at the time `now` does, which grants the key some times to
live and brings some values in. -/
inductive Item.Succeeds (limits : StoreLimits) (now : Int) (grants : Int → Prop)
    (brings : Value → Prop) : Option Item → Item → Prop
  | stays (item : Item) : Succeeds limits now grants brings (some item) item
  | used (item : Item) : Succeeds limits now grants brings (some item) (item.touch now)
  | unlocked (item : Item) :
      Succeeds limits now grants brings (some item) { item.touch now with lock := 0 }
  | summed (item : Item) {n : Int64} : brings (.number n) →
      Succeeds limits now grants brings (some item) { item.touch now with value := .number n }
  | locked (item : Item) (seconds : Int) :
      Succeeds limits now grants brings (some item)
        { item.restart now with lock := if seconds < 0 then Item.permanentLock else seconds }
  | granted (item : Item) {ttl : Int} : grants ttl →
      Succeeds limits now grants brings (some item)
        { item.restart now with ttl := min ttl limits.maxItemTtl }
  | came (old : Option Item) {value : Value} {ttl : Int} : brings value →
      grants ttl ∨ ttl = -1 →
      Succeeds limits now grants brings old (Item.create value (min ttl limits.maxItemTtl) now)

/-! ## Plans -/

namespace Plan

variable {β : Type} {p : Plan β} {grants : Int → Prop} {brings : Value → Prop}

/-- What the plan leaves may come after the item it is given. -/
def Succeeds (p : Plan β) (grants : Int → Prop) (brings : Value → Prop) : Prop :=
  ∀ (limits : StoreLimits) (now : Int) (item new : Item),
    (p limits now item).2.slot limits now item = some new →
      Item.Succeeds limits now grants brings (some item) new

theorem Succeeds.unlessLocked (h : p.Succeeds grants brings) :
    p.unlessLocked.Succeeds grants brings := by
  intro limits now item new hnew
  unfold Plan.unlessLocked at hnew
  split at hnew
  · obtain rfl := Option.some.inj hnew
    exact .stays item
  · exact h limits now item new hnew

theorem succeeds_of_keep (h : ∀ limits now item, (p limits now item).2 = .keep) :
    p.Succeeds grants brings := by
  intro limits now item new hnew
  rw [h] at hnew
  obtain rfl := Option.some.inj hnew
  exact .stays item

theorem succeeds_revise {change : StoreLimits → Int → Item → Item}
    (h : ∀ limits now item,
      Item.Succeeds limits now grants brings (some item) (change limits now item)) :
    (revise change).Succeeds grants brings := by
  intro limits now item new hnew
  obtain rfl := Option.some.inj hnew
  exact h limits now item

theorem succeeds_read : read.Succeeds grants brings := by
  intro limits now item new hnew
  obtain rfl := Option.some.inj hnew
  exact .used item

theorem succeeds_delete : delete.Succeeds grants brings :=
  Succeeds.unlessLocked fun _ _ _ _ hnew => nomatch hnew

theorem succeeds_live {ttl : Int} (h : grants ttl) : (live ttl).Succeeds grants brings :=
  Succeeds.unlessLocked (succeeds_revise fun _ _ item => .granted item h)

theorem succeeds_lock (seconds : Int) : (lock seconds).Succeeds grants brings :=
  Succeeds.unlessLocked (succeeds_revise fun _ _ item => .locked item seconds)

theorem succeeds_unlock : unlock.Succeeds grants brings :=
  succeeds_revise fun _ _ item => .unlocked item

theorem succeeds_add (h : ∀ n, brings (.number n)) (delta : Int64) :
    (add delta).Succeeds grants brings := by
  refine Succeeds.unlessLocked fun limits now item new hnew => ?_
  cases hn : item.value.asNumber? with
  | none =>
    rw [hn] at hnew
    obtain rfl := Option.some.inj hnew
    exact .stays item
  | some n =>
    rw [hn] at hnew
    obtain rfl := Option.some.inj hnew
    exact .summed item (h (n + delta))

theorem succeeds_replace {full : Nat} {value : Value} (h : brings value) :
    (replace full value).Succeeds grants brings := by
  refine Succeeds.unlessLocked fun limits now item new hnew => ?_
  obtain rfl := Option.some.inj hnew
  exact .came (some item) h (.inr rfl)

theorem Succeeds.leavesUnder (hp : p.Succeeds grants brings) {s : Store} {key : Bytes} {new : Item}
    (hnew : p.leavesUnder s key = some new) :
    Item.Succeeds s.limits s.now grants brings (s.trie.find? key) new := by
  obtain ⟨item, hlive, hslot⟩ := Option.bind_eq_some_iff.1 hnew
  rw [(Store.liveUnder?_eq_some.1 hlive).1]
  exact hp s.limits s.now item new hslot

end Plan

/-! ## Operations -/

/-- The operation asks for the time to live. -/
def KeyOperation.Grants (op : KeyOperation) (ttl : Int) : Prop :=
  match op with
  | set _ seconds | setTtl seconds => seconds = ttl
  | _ => False

/-- The operation asks for the time to live. Replacing asks for none. -/
def StemOperation.Grants (op : StemOperation) (ttl : Int) : Prop :=
  match op with
  | setTtl seconds => seconds = ttl
  | _ => False

/-- The operation asks for the time to live for the key. -/
def Operation.Grants (op : Operation) (key : Bytes) (ttl : Int) : Prop :=
  match op with
  | onKey target op => target = key ∧ op.Grants ttl
  | onStem stem op => stem <+: key ∧ op.Grants ttl
  | _ => False

/-- The operation brings the value in: the kept form of its data, or a
sum. -/
def KeyOperation.Brings (op : KeyOperation) (s : Store) (v : Value) : Prop :=
  match op with
  | set data _ => v = s.encode data
  | add _ => ∃ n, v = .number n
  | _ => False

/-- The operation brings the value in: the kept form of its data, or a
sum. -/
def StemOperation.Brings (op : StemOperation) (s : Store) (v : Value) : Prop :=
  match op with
  | set data => v = s.encode data
  | add _ => ∃ n, v = .number n
  | _ => False

/-- The operation brings the value in. -/
def Operation.Brings (op : Operation) (s : Store) (v : Value) : Prop :=
  match op with
  | onKey _ op => op.Brings s v
  | onStem _ op => op.Brings s v
  | _ => False

theorem KeyOperation.succeeds {op : KeyOperation} {r : KeyReading} (h : op.reading? = some r)
    {brings : Value → Prop} : r.plan.Succeeds op.Grants brings := by
  cases op <;> cases h
  · exact Plan.succeeds_read
  · exact Plan.succeeds_delete
  · exact Plan.succeeds_live rfl
  · exact Plan.succeeds_lock _
  · exact Plan.succeeds_unlock
  · exact Plan.succeeds_of_keep fun _ _ _ => rfl

theorem StemOperation.succeeds (op : StemOperation) (s : Store) :
    (op.reading s).plan.Succeeds op.Grants (op.Brings s) := by
  cases op with
  | set data => exact Plan.succeeds_replace rfl
  | get => exact Plan.succeeds_read
  | del => exact Plan.succeeds_delete
  | setTtl ttl => exact Plan.succeeds_live rfl
  | add delta => exact Plan.succeeds_add (fun n => ⟨n, rfl⟩) delta
  | lock seconds => exact Plan.succeeds_lock seconds
  | unlock => exact Plan.succeeds_unlock
  | count => exact Plan.succeeds_of_keep fun _ _ _ => rfl
  | keys => exact Plan.succeeds_of_keep fun _ _ _ => rfl

section Succession

variable {s : Store} {key : Bytes} {new : Item} {grants : Int → Prop} {brings : Value → Prop}

/-- What was there before stays. -/
theorem Store.succeeds_of_same (hnew : s.trie.find? key = some new) :
    Item.Succeeds s.limits s.now grants brings (s.trie.find? key) new :=
  hnew ▸ .stays new

theorem Store.succeeds_of_liveUnder? (hnew : s.liveUnder? key = some new) :
    Item.Succeeds s.limits s.now grants brings (s.trie.find? key) new :=
  succeeds_of_same (liveUnder?_eq_some.1 hnew).1

theorem Store.succeeds_set (hs : s.trie.Arranged) {data : Bytes} {ttl : Int} (hgrants : grants ttl)
    (hbrings : brings (s.encode data))
    (hnew : (s.set key data ttl).2.trie.find? key = some new) :
    Item.Succeeds s.limits s.now grants brings (s.trie.find? key) new := by
  by_cases hover : s.OverBudget
  · rw [set_of_overBudget hover] at hnew
    exact succeeds_of_same hnew
  by_cases hb : s.Barred key
  · rw [set_of_barred hover hb] at hnew
    exact succeeds_of_same hnew
  · rw [find?_set hs hover hb, if_pos rfl] at hnew
    obtain rfl := Option.some.inj hnew
    exact .came _ hbrings (.inl hgrants)

theorem Store.succeeds_add (hs : s.trie.Arranged) {delta : Int64}
    (hbrings : ∀ n, brings (.number n))
    (hnew : (s.add key delta).2.trie.find? key = some new) :
    Item.Succeeds s.limits s.now grants brings (s.trie.find? key) new := by
  rw [find?_add hs, if_pos rfl] at hnew
  split at hnew
  · obtain rfl := Option.some.inj hnew
    exact .came _ (hbrings delta) (.inr rfl)
  · exact (Plan.succeeds_add hbrings delta).leavesUnder hnew

theorem KeyOperation.succeeds_run (hs : s.trie.Arranged) {op : KeyOperation} {target : Bytes}
    (hnew : (op.run target s).2.trie.find? key = some new) :
    Item.Succeeds s.limits s.now ((Operation.onKey target op).Grants key) (op.Brings s)
      (s.trie.find? key) new := by
  by_cases hk : target = key
  · subst hk
    have hgrants : (Operation.onKey target op).Grants target = op.Grants :=
      funext fun _ => propext (and_iff_right rfl)
    rw [hgrants]
    cases hr : op.reading? with
    | some r =>
      rw [run_eq hr] at hnew
      have hleaves := (Store.find?_onKey hs r.plan target target).trans (if_pos rfl)
      exact (succeeds hr).leavesUnder (hleaves.symm.trans hnew)
    | none =>
      cases op with
      | set data ttl => exact Store.succeeds_set hs rfl rfl hnew
      | add delta => exact Store.succeeds_add hs (fun n => ⟨n, rfl⟩) hnew
      | _ => cases hr
  · rw [find?_run_of_ne hs op hk] at hnew
    exact Store.succeeds_of_same hnew

theorem StemOperation.succeeds_run (hs : s.trie.Arranged) {op : StemOperation} {stem : Bytes}
    (hnew : (op.run stem s).2.trie.find? key = some new) :
    Item.Succeeds s.limits s.now ((Operation.onStem stem op).Grants key) (op.Brings s)
      (s.trie.find? key) new := by
  by_cases hk : stem <+: key
  · by_cases hover : op.Stores ∧ s.OverBudget
    · rw [run_of_overBudget hover.1 hover.2] at hnew
      exact Store.succeeds_of_same hnew
    · have hgrants : (Operation.onStem stem op).Grants key = op.Grants :=
        funext fun _ => propext (and_iff_right hk)
      rw [run_eq fun h ho => hover ⟨h, ho⟩] at hnew
      rw [hgrants]
      have hleaves := (Store.find?_onStem hs (op.reading s).plan stem key).trans (if_pos hk)
      exact (op.succeeds s).leavesUnder (hleaves.symm.trans hnew)
  · rw [find?_run_of_outside hs op hk] at hnew
    exact Store.succeeds_of_same hnew

/-- **What a key holds after an operation** comes from what it held
before. -/
theorem Operation.succeeds_run (hs : s.trie.Arranged) {op : Operation}
    (hnew : (op.run s).2.trie.find? key = some new) :
    Item.Succeeds s.limits s.now (op.Grants key) (op.Brings s) (s.trie.find? key) new := by
  cases op with
  | onKey target op => exact KeyOperation.succeeds_run hs hnew
  | onStem stem op => exact StemOperation.succeeds_run hs hnew
  | check id =>
    have hseen := (Store.find?_liveAt hs id key).symm.trans hnew
    split at hseen
    · exact Store.succeeds_of_liveUnder? hseen
    · exact Store.succeeds_of_same hseen
  | expireSweep =>
    exact Store.succeeds_of_liveUnder? ((Store.find?_expireSweep hs key).symm.trans hnew)
  | memorySweep => exact Store.succeeds_of_same (Store.find?_of_memorySweep hs hnew)
  | destroyAll =>
    have hempty : s.destroyAll.2.trie = .empty := by rw [Store.destroyAll_snd]
    rw [run, hempty, Trie.find?_empty] at hnew
    cases hnew
  | setClock now => exact Store.succeeds_of_same hnew
  | note figures => exact Store.succeeds_of_same hnew

end Succession

end PrefixCache

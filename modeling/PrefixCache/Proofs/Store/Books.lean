import PrefixCache.Proofs.Store.Plan
import Mathlib.Algebra.GroupWithZero.Nat
/-!
# The books of a store

A store is `Sound` when its trie is arranged and its counters are what the
items in the trie add up to. Whatever an operation is made of keeps it
sound (`Upholds`): looking at a node, carrying out a change, bringing an
item in. Each of these exchanges at most one occupant of the trie, and
books the one going out and the one coming in (`Sound.swap`). An item that
is there is covered by the counters (`Sound.covers`), so nothing is ever
subtracted that was not added before.
-/

namespace PrefixCache

namespace Counters

/-- Counts an item, if there is one, as gone. -/
def released (c : Counters) : Option Item → Counters
  | some item => c.destroyed item
  | none => c

/-- The counters agree on items and memory. -/
structure SameBooks (c d : Counters) : Prop where
  items : d.items = c.items
  compressedItems : d.compressedItems = c.compressedItems
  memoryUsed : d.memoryUsed = c.memoryUsed
  memoryPeak : d.memoryPeak = c.memoryPeak

theorem sameBooks_compressed (c : Counters) (full packed : Nat) :
    c.SameBooks (c.compressed full packed) := by
  unfold compressed
  split <;> exact ⟨rfl, rfl, rfl, rfl⟩

@[simp] theorem memoryPeak_released (c : Counters) (old : Option Item) :
    (c.released old).memoryPeak = c.memoryPeak := by
  cases old <;> rfl

@[simp] theorem compressions_released (c : Counters) (old : Option Item) :
    (c.released old).compressions = c.compressions := by
  cases old <;> rfl

@[simp] theorem compressions_created (c : Counters) (item : Item) (now : Int) :
    (c.created item now).compressions = c.compressions := rfl

@[simp] theorem memoryPeak_created (c : Counters) (item : Item) (now : Int) :
    (c.created item now).memoryPeak = max c.memoryPeak (c.memoryUsed + item.footprint) := rfl

end Counters

namespace Store

variable {s s' s'' : Store} {id : NodeId} {item : Item}

@[simp] theorem discard_counters (s : Store) (old : Option Item) :
    (s.discard old).counters = s.counters.released old := by
  cases old <;> rfl

theorem destroyAt_counters (s : Store) (id : NodeId) :
    (s.destroyAt id).counters = s.counters.released (s.trie.get? id) := by
  rw [destroyAt]
  simp [Trie.take]

theorem sameBooks_countCompression (s : Store) (full : Nat) (v : Value) :
    s.counters.SameBooks (s.countCompression full v).counters := by
  cases v with
  | compressed packed => exact Counters.sameBooks_compressed _ _ _
  | _ => exact ⟨rfl, rfl, rfl, rfl⟩

/-- One more compression is counted for a value that is kept compressed and
stands for some bytes. -/
theorem compressions_countCompression {full : Nat} {v : Value}
    (h : v.encoding = .compressed → 0 < full) :
    (s.countCompression full v).counters.compressions =
      s.counters.compressions + Counters.compressedWeight v := by
  cases v with
  | compressed packed =>
    have hfull : full ≠ 0 := Nat.ne_of_gt (h rfl)
    simp [countCompression, Counters.compressed, hfull, Counters.compressedWeight, Value.encoding]
  | _ => simp [countCompression, Counters.compressedWeight, Value.encoding]

/-! ## Sound stores -/

/-- The trie is arranged, and the counters are what the items in it add up
to. -/
structure Sound (s : Store) : Prop where
  arranged : s.trie.Arranged
  tallied : s.trie.Tallied
  items : s.counters.items = s.trie.occupants.length
  compressed : s.counters.compressedItems =
    (s.trie.occupants.map fun i => Counters.compressedWeight i.value).sum
  memory : s.counters.memoryUsed = (s.trie.occupants.map Item.footprint).sum
  peak : s.counters.memoryUsed ≤ s.counters.memoryPeak

theorem sound_empty (limits : StoreLimits) (now : Int) : (empty limits now).Sound where
  arranged := Trie.arranged_empty
  tallied := Trie.tallied_empty
  items := by simp [empty]
  compressed := by simp [empty]
  memory := by simp [empty]
  peak := Nat.le_refl _

/-- **A swap that is booked keeps a store sound**: what goes out is
subtracted and what comes in is added. -/
theorem Sound.swap (h : s.Sound) {old new : Option Item} (hid : id < s.trie.nodeCount)
    (hold : s.trie.get? id = old) (htrie : s'.trie = (s.trie.swap id new).2)
    (hitems : s'.counters.items + old.toList.length = s.counters.items + new.toList.length)
    (hcompressed : s'.counters.compressedItems +
        (old.toList.map fun i => Counters.compressedWeight i.value).sum =
      s.counters.compressedItems +
        (new.toList.map fun i => Counters.compressedWeight i.value).sum)
    (hmemory : s'.counters.memoryUsed + (old.toList.map Item.footprint).sum =
      s.counters.memoryUsed + (new.toList.map Item.footprint).sum)
    (hpeak : s'.counters.memoryUsed ≤ s'.counters.memoryPeak) : s'.Sound := by
  -- one occupant goes and one comes, and the sums change by their difference
  obtain ⟨front, back, hbefore, hafter⟩ := Trie.exists_occupants_swap hid new
  rw [hold] at hbefore
  have h1 := h.items
  have h2 := h.compressed
  have h3 := h.memory
  rw [hbefore] at h1 h2 h3
  simp only [List.length_append, List.map_append, List.sum_append] at h1 h2 h3
  refine ⟨htrie ▸ h.arranged.swap id new, htrie ▸ h.tallied.swap id new, ?_, ?_, ?_, hpeak⟩ <;>
    (rw [htrie, hafter]; simp only [List.length_append, List.map_append, List.sum_append]; omega)

/-- **What is there is covered by the counters.** -/
theorem Sound.covers (h : s.Sound) (hget : s.trie.get? id = some item) :
    1 ≤ s.counters.items ∧ Counters.compressedWeight item.value ≤ s.counters.compressedItems ∧
      item.footprint ≤ s.counters.memoryUsed := by
  obtain ⟨front, back, hocc, -⟩ :=
    Trie.exists_occupants_swap (Trie.lt_nodeCount_of_get? hget) none
  rw [h.items, h.compressed, h.memory, hocc, hget]
  simp only [Option.toList_some, List.length_append, List.length_singleton, List.map_append,
    List.map_singleton, List.sum_append, List.sum_singleton]
  omega

/-- A sound store stays sound when its trie grows. -/
theorem Sound.grow (h : s.Sound) {u : Trie Item} (hu : s.trie.Grows u) :
    ({ s with trie := u } : Store).Sound where
  arranged := hu.arranged
  tallied := hu.tallied h.tallied
  items := hu.occupants ▸ h.items
  compressed := hu.occupants ▸ h.compressed
  memory := hu.occupants ▸ h.memory
  peak := h.peak

/-- A sound store stays sound when counters change that are not about
items. -/
theorem Sound.rebook (h : s.Sound) (htrie : s'.trie = s.trie)
    (hbooks : s.counters.SameBooks s'.counters) : s'.Sound where
  arranged := htrie ▸ h.arranged
  tallied := htrie ▸ h.tallied
  items := by rw [hbooks.items, htrie, h.items]
  compressed := by rw [hbooks.compressedItems, htrie, h.compressed]
  memory := by rw [hbooks.memoryUsed, htrie, h.memory]
  peak := by rw [hbooks.memoryUsed, hbooks.memoryPeak]; exact h.peak

/-- **A new item, booked in before the old one is booked out**, keeps a
store sound. -/
theorem Sound.exchange (h : s.Sound) (now : Int) (hid : id < s.trie.nodeCount) {c : Counters}
    (hc : s.counters.SameBooks c) (htrie : s'.trie = (s.trie.swap id (some item)).2)
    (hcounters : s'.counters = (c.created item now).released (s.trie.get? id)) : s'.Sound := by
  obtain ⟨hi, hz, hm, hp⟩ := hc
  cases hget : s.trie.get? id with
  | none =>
    rw [hget] at hcounters
    refine h.swap hid hget htrie ?_ ?_ ?_ ?_ <;>
      simp only [hcounters, Counters.released, Counters.created, hi, hz, hm, Option.toList_some,
        Option.toList_none, List.length_singleton, List.length_nil, List.map_singleton,
        List.map_nil, List.sum_singleton, List.sum_nil] <;>
      omega
  | some old =>
    -- the old item is covered before the new one comes, so also after
    have hcovers := h.covers hget
    rw [hget] at hcounters
    refine h.swap hid hget htrie ?_ ?_ ?_ ?_ <;>
      simp only [hcounters, Counters.released, Counters.created, Counters.destroyed, hi, hz, hm,
        Option.toList_some, List.length_singleton, List.map_singleton, List.sum_singleton] <;>
      omega

/-! ## What keeps a store sound -/

/-- From one store to the next the books stay right, the peak does not go
down, and `packed` more compressions are counted. -/
structure Upholds (s s' : Store) (packed : Nat) : Prop where
  sound : s'.Sound
  peak : s.counters.memoryPeak ≤ s'.counters.memoryPeak
  compressions : s'.counters.compressions = s.counters.compressions + packed

namespace Upholds

theorem refl (h : s.Sound) : s.Upholds s 0 := ⟨h, Nat.le_refl _, rfl⟩

theorem trans {m n : Nat} (h : s.Upholds s' m) (h' : s'.Upholds s'' n) :
    s.Upholds s'' (m + n) :=
  ⟨h'.sound, Nat.le_trans h.peak h'.peak, by rw [h'.compressions, h.compressions, Nat.add_assoc]⟩

end Upholds

theorem upholds_destroyAt (h : s.Sound) (id : NodeId) : s.Upholds (s.destroyAt id) 0 := by
  cases hget : s.trie.get? id with
  | none =>
    have htrie : (s.destroyAt id).trie = s.trie := by
      rw [destroyAt_trie]
      exact hget ▸ Trie.swap_get?
    have hcounters : (s.destroyAt id).counters = s.counters := by
      rw [destroyAt_counters, hget, Counters.released]
    exact ⟨h.rebook htrie (hcounters ▸ ⟨rfl, rfl, rfl, rfl⟩), hcounters ▸ Nat.le_refl _,
      hcounters ▸ rfl⟩
  | some item =>
    have hcovers := h.covers hget
    have hcounters : (s.destroyAt id).counters = s.counters.destroyed item := by
      rw [destroyAt_counters, hget, Counters.released]
    have hpeak := h.peak
    refine ⟨h.swap (Trie.lt_nodeCount_of_get? hget) hget (destroyAt_trie s id) ?_ ?_ ?_ ?_, ?_, ?_⟩
      <;> simp only [hcounters, Counters.destroyed, Option.toList_some, Option.toList_none,
        List.length_singleton, List.length_nil, List.map_singleton, List.map_nil,
        List.sum_singleton, List.sum_nil]
      <;> omega

theorem upholds_liveAt (h : s.Sound) (id : NodeId) : s.Upholds (s.liveAt id).2 0 := by
  unfold liveAt
  cases s.trie.get? id with
  | none => exact .refl h
  | some item =>
    by_cases hl : item.Lapsed s.now
    · simp only [hl, if_true]
      exact upholds_destroyAt h id
    · simp only [hl, if_false]
      exact .refl h

theorem upholds_reviseAt (h : s.Sound) (hget : s.trie.get? id = some item) {new : Item}
    (hweight : Counters.compressedWeight new.value = Counters.compressedWeight item.value) :
    s.Upholds (s.reviseAt id item new) 0 := by
  have hcovers := h.covers hget
  have hsize : item.size ≤ s.counters.memoryUsed :=
    Nat.le_trans (Nat.le_add_right _ _) hcovers.2.2
  have htrie : (s.reviseAt id item new).trie = (s.trie.swap id (some new)).2 := rfl
  refine ⟨h.swap (Trie.lt_nodeCount_of_get? hget) hget htrie ?_ ?_ ?_ ?_, ?_, ?_⟩
    <;> simp only [reviseAt, Counters.resized, Item.footprint, hweight, Option.toList_some,
      List.length_singleton, List.map_singleton, List.sum_singleton]
    <;> omega

/-- A new item at a node. -/
theorem upholds_insertAt (h : s.Sound) (hid : id < s.trie.nodeCount) {full : Nat} {v : Value}
    (hfull : v.encoding = .compressed → 0 < full) (ttl : Int) :
    s.Upholds (((s.countCompression full v).create v ttl).2.insertAt id
      ((s.countCompression full v).create v ttl).1) (Counters.compressedWeight v) := by
  have hbooks := sameBooks_countCompression s full v
  have hcounters : (((s.countCompression full v).create v ttl).2.insertAt id
      ((s.countCompression full v).create v ttl).1).counters =
        ((s.countCompression full v).counters.created
          ((s.countCompression full v).create v ttl).1 s.now).released (s.trie.get? id) := by
    rw [insertAt]
    simp [create]
  refine ⟨h.exchange s.now hid hbooks (by simp) hcounters, ?_, ?_⟩
  · rw [hcounters, Counters.memoryPeak_released, Counters.memoryPeak_created, hbooks.memoryPeak]
    exact Nat.le_max_left _ _
  · rw [hcounters, Counters.compressions_released, Counters.compressions_created,
      compressions_countCompression hfull]

end Store

/-! ## Changes and plans -/

namespace Change

/-- The change keeps the count of compressed items right: what is changed
in place is compressed afterwards just if it was before, and what is
counted as a compression stands for some bytes. -/
def Bookable (c : Change) (item : Item) : Prop :=
  match c with
  | revise new => Counters.compressedWeight new.value = Counters.compressedWeight item.value
  | renew full value => value.encoding = .compressed → 0 < full
  | _ => True

/-- How many compressed items the change stores. -/
def packed : Change → Nat
  | renew _ value => Counters.compressedWeight value
  | _ => 0

theorem upholds_apply {s : Store} {id : NodeId} {item : Item} (h : s.Sound)
    (hget : s.trie.get? id = some item) {c : Change} (hc : c.Bookable item) :
    s.Upholds (c.apply id item s) c.packed := by
  cases c with
  | keep => exact .refl h
  | revise new => exact Store.upholds_reviseAt h hget hc
  | remove => exact Store.upholds_destroyAt h id
  | renew full value => exact Store.upholds_insertAt h (Trie.lt_nodeCount_of_get? hget) hc (-1)

end Change

namespace Plan

variable {β : Type}

/-- Every change the plan makes keeps the books right, and `weight`
compressed items are stored just by those that succeed. -/
structure Bookable (p : Plan β) (weight : Nat) : Prop where
  change (limits : StoreLimits) (now : Int) (item : Item) : (p limits now item).2.Bookable item
  packed (limits : StoreLimits) (now : Int) (item : Item) :
    (p limits now item).2.packed = if (p limits now item).1.toOption.isSome then weight else 0

theorem Bookable.unlessLocked {p : Plan β} {weight : Nat} (h : p.Bookable weight) :
    p.unlessLocked.Bookable weight := by
  constructor <;> intro limits now item <;> unfold Plan.unlessLocked <;> split
  · trivial
  · exact h.change limits now item
  · rfl
  · exact h.packed limits now item

theorem bookable_revise {change : StoreLimits → Int → Item → Item}
    (h : ∀ limits now item, (change limits now item).value = item.value) :
    (revise change).Bookable 0 :=
  ⟨fun limits now item => congrArg _ (h limits now item), fun _ _ _ => rfl⟩

theorem bookable_keep : keep.Bookable 0 := ⟨fun _ _ _ => trivial, fun _ _ _ => rfl⟩

theorem bookable_ask (a : Attribute) : (ask a).Bookable 0 :=
  ⟨fun _ _ _ => trivial, fun _ _ _ => rfl⟩

theorem bookable_read : read.Bookable 0 :=
  ⟨fun _ _ _ => rfl, fun _ _ _ => (ite_self 0).symm⟩

theorem bookable_delete : delete.Bookable 0 :=
  Bookable.unlessLocked ⟨fun _ _ _ => trivial, fun _ _ _ => rfl⟩

theorem bookable_live (ttl : Int) : (live ttl).Bookable 0 :=
  Bookable.unlessLocked (bookable_revise fun _ _ _ => rfl)

theorem bookable_lock (seconds : Int) : (lock seconds).Bookable 0 :=
  Bookable.unlessLocked (bookable_revise fun _ _ _ => rfl)

theorem bookable_unlock : unlock.Bookable 0 := bookable_revise fun _ _ _ => rfl

/-- A compressed value is never taken for a number, so nothing compressed
becomes one. -/
theorem bookable_add (delta : Int64) : (add delta).Bookable 0 := by
  refine Bookable.unlessLocked ⟨fun limits now item => ?_, fun limits now item => ?_⟩
  · cases hv : item.value <;> simp only [Value.asNumber?]
    · cases Value.integer? _ <;> simp [Change.Bookable, hv, Counters.compressedWeight, Value.encoding]
    · trivial
    · simp [Change.Bookable, hv, Counters.compressedWeight, Value.encoding]
  · cases item.value.asNumber? <;> rfl

theorem bookable_replace {full : Nat} {v : Value} (h : v.encoding = .compressed → 0 < full) :
    (replace full v).Bookable (Counters.compressedWeight v) :=
  Bookable.unlessLocked ⟨fun _ _ _ => h, fun _ _ _ => rfl⟩

end Plan

namespace Store

variable {β : Type} {s : Store} {p : Plan β} {weight : Nat}

theorem upholds_onNode (h : s.Sound) (hp : p.Bookable weight) (m : Bytes × NodeId) :
    s.Upholds (s.onNode m.2 p.act).2 (weight * (p.gives s m).toList.length) := by
  cases hl : s.liveItem? m.2 with
  | none =>
    rw [onNode_of_none hl, Plan.gives, hl]
    exact upholds_liveAt h m.2
  | some item =>
    rw [onNode_of_some hl]
    have := Change.upholds_apply h (liveItem?_eq_some.1 hl).1 (hp.change s.limits s.now item)
    rw [hp.packed] at this
    rw [Plan.gives, hl, Option.bind_some]
    cases hr : (p s.limits s.now item).1 <;> simpa [hr, Except.toOption, Plan.act] using this

theorem upholds_foldl_onMember (hp : p.Bookable weight) {ms : List (Bytes × NodeId)}
    (hnodup : (ms.map Prod.snd).Nodup) (given : List (Bytes × β)) (h : s.Sound) :
    s.Upholds (ms.foldl (onMember p.act) (given, s)).2
      (weight * (ms.filterMap (p.gives s)).length) := by
  induction ms generalizing given s with
  | nil => exact .refl h
  | cons m ms ih =>
    obtain ⟨hout, hrest⟩ := List.nodup_cons.1 hnodup
    have hone := upholds_onNode h hp m
    have hmore := ih hrest ((p.gives s m).toList ++ given) hone.sound
    rw [filterMap_gives_onNode p hout] at hmore
    have hsum : weight * ((m :: ms).filterMap (p.gives s)).length =
        weight * (p.gives s m).toList.length + weight * (ms.filterMap (p.gives s)).length := by
      rw [List.filterMap_cons]
      cases p.gives s m <;> simp [Nat.mul_add, Nat.add_comm]
    rw [List.foldl_cons, onMember_eq, hsum]
    exact hone.trans hmore

/-- **An operation on a stem keeps the books right**, and stores a
compressed item for every member that succeeds if the plan does so for
one. -/
theorem upholds_onStem (h : s.Sound) (hp : p.Bookable weight) (stem : Bytes) :
    s.Upholds (s.onStem stem p.act).2
      (weight * ((s.trie.searchNodes stem).filterMap (p.gives s)).length) := by
  by_cases hnil : s.trie.searchNodes stem = []
  · rw [onStem_of_nil hnil, hnil]
    exact .refl h
  · rw [onStem_of_ne_nil hnil]
    exact upholds_foldl_onMember hp (Trie.nodup_searchNodes h.arranged stem) [] h

/-- **So does an operation on a key that follows a plan.** -/
theorem upholds_onKey (h : s.Sound) (hp : p.Bookable 0) (key : Bytes) :
    s.Upholds (s.onKey key p.act).2 0 := by
  unfold onKey
  cases s.trie.findNode? key with
  | none => exact .refl h
  | some id =>
    have := upholds_onNode h hp (key, id)
    rwa [Nat.zero_mul] at this

end Store

end PrefixCache

import PrefixCache.Proofs.Store.Books
/-!
# Bringing items in

Storing under a key and adding to a key without an item bring a new item
in, in the same way (`bringIn`): the compression is counted, then the
item, then the trie takes it and gives back the one it replaces. Over the
budget and under a lock nothing is stored; otherwise the key is looked at,
which destroys a lapsed item there, and the new item comes in
(`set_of_free`).
-/

namespace PrefixCache

namespace Store

variable {s s' : Store} {key : Bytes} {id : NodeId} {item : Item}

/-! ## Looking at a key -/

/-- The live item under a key. -/
def liveUnder? (s : Store) (key : Bytes) : Option Item :=
  (s.trie.findNode? key).bind s.liveItem?

theorem liveUnder?_eq_some :
    s.liveUnder? key = some item ↔ s.trie.find? key = some item ∧ ¬ item.Lapsed s.now := by
  simp only [liveUnder?, Option.bind_eq_some_iff, liveItem?_eq_some, Trie.find?_eq_some]
  exact ⟨fun ⟨id, hf, hg, hl⟩ => ⟨⟨id, hf, hg⟩, hl⟩, fun ⟨⟨id, hf, hg⟩, hl⟩ => ⟨id, hf, hg, hl⟩⟩

theorem liveKey_of_none (h : s.trie.findNode? key = none) : s.liveKey key = (none, s) := by
  rw [liveKey, h]

theorem liveKey_of_some (h : s.trie.findNode? key = some id) :
    s.liveKey key = ((s.liveItem? id).map fun item => (id, item), (s.liveAt id).2) := by
  rw [liveKey, h, ← liveAt_fst]

theorem liveKey_fst (s : Store) (key : Bytes) :
    (s.liveKey key).1.map Prod.snd = s.liveUnder? key := by
  unfold liveUnder?
  cases h : s.trie.findNode? key with
  | none => rw [liveKey_of_none h]; rfl
  | some id =>
    rw [liveKey_of_some h, Option.bind_some, Option.map_map]
    cases s.liveItem? id <;> rfl

theorem sameGround_liveKey (s : Store) (key : Bytes) : s.SameGround (s.liveKey key).2 := by
  cases h : s.trie.findNode? key with
  | none => rw [liveKey_of_none h]; exact .refl s
  | some id => rw [liveKey_of_some h]; exact sameGround_liveAt s id

theorem upholds_liveKey (h : s.Sound) (key : Bytes) : s.Upholds (s.liveKey key).2 0 := by
  cases hf : s.trie.findNode? key with
  | none => rw [liveKey_of_none hf]; exact .refl h
  | some id => rw [liveKey_of_some hf]; exact upholds_liveAt h id

/-! ## Bringing an item in -/

/-- Brings an item in under a key: a new one that holds `value`, the kept
form of `full` bytes. -/
def bringIn (s : Store) (key : Bytes) (full : Nat) (value : Value) (ttl : Int) : Store :=
  let (item, s) := (s.countCompression full value).create value ttl
  s.insert key item

/-- The item that is brought in. -/
def fresh (s : Store) (value : Value) (ttl : Int) : Item :=
  Item.create value (min ttl s.limits.maxItemTtl) s.now

theorem SameGround.fresh_eq (h : s.SameGround s') (value : Value) (ttl : Int) :
    s'.fresh value ttl = s.fresh value ttl := by
  rw [fresh, fresh, h.limits, h.now]

theorem put_eq (s : Store) (key data : Bytes) (ttl : Int) :
    s.put key data ttl = s.bringIn key data.length (s.encode data) ttl := rfl

variable {full : Nat} {value : Value} {ttl : Int}

theorem bringIn_eq (s : Store) (key : Bytes) (full : Nat) (value : Value) (ttl : Int) :
    s.bringIn key full value ttl =
      { s with
        trie := (s.trie.insert key (s.fresh value ttl)).2
        counters := ((s.countCompression full value).counters.created (s.fresh value ttl)
          s.now).released (s.trie.insert key (s.fresh value ttl)).1 } := by
  have hfresh : ((s.countCompression full value).create value ttl).1 = s.fresh value ttl := by
    simp [fresh]
  have htrie : (s.countCompression full value).trie = s.trie := countCompression_trie s full value
  unfold bringIn insert
  simp only [hfresh, create_snd_trie, htrie]
  cases (s.trie.insert key (s.fresh value ttl)).1 <;> cases value <;> rfl

/-- Replacing the item of a node, step by step. -/
theorem renew_eq (s : Store) (id : NodeId) (item : Item) (full : Nat) (v : Value) :
    (Change.renew full v).apply id item s =
      { s with
        trie := (s.trie.swap id (some (s.fresh v (-1)))).2
        counters := ((s.countCompression full v).counters.created (s.fresh v (-1)) s.now).released
          (s.trie.get? id) } := by
  have hfresh : ((s.countCompression full v).create v (-1)).1 = s.fresh v (-1) := by
    simp [fresh]
  have htrie : (s.countCompression full v).trie = s.trie := countCompression_trie s full v
  simp only [Change.apply, insertAt, hfresh, create_snd_trie, htrie, Trie.swap_fst]
  cases s.trie.get? id <;> cases v <;> rfl

/-- **Replacing the item of a node is bringing one in** under its key. -/
theorem bringIn_of_findNode? (hf : s.trie.findNode? key = some id) (item : Item) (full : Nat)
    (value : Value) :
    s.bringIn key full value (-1) = (Change.renew full value).apply id item s := by
  rw [bringIn_eq, renew_eq, Trie.insert_of_findNode? hf, Trie.swap_fst]

@[simp] theorem bringIn_trie : (s.bringIn key full value ttl).trie =
    (s.trie.insert key (s.fresh value ttl)).2 := by
  rw [bringIn_eq]

@[simp] theorem bringIn_limits : (s.bringIn key full value ttl).limits = s.limits := by
  rw [bringIn_eq]

@[simp] theorem bringIn_now : (s.bringIn key full value ttl).now = s.now := by
  rw [bringIn_eq]

/-- **Bringing an item in keeps the books right.** -/
theorem upholds_bringIn (h : s.Sound) (hfull : value.encoding = .compressed → 0 < full) :
    s.Upholds (s.bringIn key full value ttl) (Counters.compressedWeight value) := by
  obtain ⟨u, id, hgrows, hf, heq⟩ :=
    Trie.exists_insert h.arranged key (s.fresh value ttl)
  have hbooks := sameBooks_countCompression s full value
  rw [bringIn_eq, heq]
  refine ⟨?_, ?_, ?_⟩
  · -- the books are those of the store whose trie has grown already
    have hid : id < u.nodeCount := hgrows.arranged.findNode?_lt hf
    refine (h.grow hgrows).exchange s.now hid hbooks rfl ?_
    simp only [← hgrows.slots]
  · simp only [Counters.memoryPeak_released, Counters.memoryPeak_created, hbooks.memoryPeak]
    exact Nat.le_max_left _ _
  · simp only [Counters.compressions_released, Counters.compressions_created]
    exact compressions_countCompression hfull

/-- What is brought in is seen under its key only. -/
theorem find?_bringIn (h : s.trie.Arranged) (key' : Bytes) :
    (s.bringIn key full value ttl).trie.find? key' =
      if key = key' then some (s.fresh value ttl) else s.trie.find? key' := by
  rw [bringIn_trie, Trie.find?_insert h]

/-- A value is kept compressed only when it has some bytes. -/
theorem pos_of_encode_compressed (s : Store) (data : Bytes) :
    (s.encode data).encoding = .compressed → 0 < data.length := by
  unfold encode
  split
  · intro _
    omega
  · intro h
    cases h

/-! ## Storing under a key -/

/-- The key holds a locked item. -/
def Barred (s : Store) (key : Bytes) : Prop :=
  ∃ item, s.trie.find? key = some item ∧ item.Locked s.now

theorem barred_iff : s.Barred key ↔ ∃ item, s.liveUnder? key = some item ∧ item.Locked s.now :=
  ⟨fun ⟨item, hf, hl⟩ =>
    ⟨item, liveUnder?_eq_some.2 ⟨hf, Item.not_lapsed_of_locked hl⟩, hl⟩,
    fun ⟨item, hf, hl⟩ => ⟨item, (liveUnder?_eq_some.1 hf).1, hl⟩⟩

theorem set_of_overBudget (h : s.OverBudget) (key data : Bytes) (ttl : Int) :
    s.set key data ttl = (.error .outOfMemory, s) := by
  rw [set, if_pos h]

/-- **Under a lock nothing is stored.** -/
theorem set_of_barred (h : ¬ s.OverBudget) (hb : s.Barred key) (data : Bytes) (ttl : Int) :
    s.set key data ttl = (.error .locked, s) := by
  obtain ⟨item, hlive, hlocked⟩ := barred_iff.1 hb
  obtain ⟨id, hf, hitem⟩ := Option.bind_eq_some_iff.1 hlive
  rw [set, if_neg h, liveKey_of_some hf, hitem, liveAt_of_some hitem]
  exact if_pos hlocked

/-- **Otherwise the key is looked at, and the new item comes in.** -/
theorem set_of_free (h : ¬ s.OverBudget) (hb : ¬ s.Barred key) (data : Bytes) (ttl : Int) :
    s.set key data ttl = (.ok (.plain data), (s.liveKey key).2.put key data ttl) := by
  have hlive := liveKey_fst s key
  rw [set, if_neg h]
  generalize hr : s.liveKey key = r at hlive
  obtain ⟨found, s'⟩ := r
  cases found with
  | none => rfl
  | some pair =>
    -- what is found is live, and the key is not barred, so it is unlocked
    have hnow : s'.now = s.now := by
      have := (sameGround_liveKey s key).now
      rwa [hr] at this
    refine if_neg fun hlocked => hb (barred_iff.2 ⟨pair.2, hlive.symm, ?_⟩)
    exact hnow ▸ hlocked

/-- Adding to a live item carries its plan out. -/
theorem add_of_some (h : s.liveUnder? key = some item) (delta : Int64) :
    s.add key delta = s.onKey key (Plan.add delta).act := by
  obtain ⟨id, hf, hitem⟩ := Option.bind_eq_some_iff.1 h
  rw [add, liveKey_of_some hf, hitem, liveAt_of_some hitem, onKey, hf]
  simp only [Option.map_some]
  rw [onNode_of_some hitem, Plan.act_add]

/-- Adding where no item is live brings one in. -/
theorem add_of_none (h : s.liveUnder? key = none) (delta : Int64) :
    s.add key delta = (.ok delta, (s.liveKey key).2.bringIn key 0 (.number delta) (-1)) := by
  have hlive := liveKey_fst s key
  rw [h] at hlive
  rw [add]
  generalize s.liveKey key = r at hlive
  obtain ⟨found, s'⟩ := r
  cases found with
  | none => rfl
  | some pair => cases hlive

end Store

end PrefixCache

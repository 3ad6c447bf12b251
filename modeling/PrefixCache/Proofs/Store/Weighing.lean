import PrefixCache.Proofs.Store.Keyed
import PrefixCache.Proofs.Store.Values
import Mathlib.Algebra.Order.BigOperators.Group.List
import Mathlib.Algebra.Ring.Int.Defs
/-!
# What operations add to the memory

The memory of a sound store is what its items weigh, so it changes by what
is exchanged (`Sound.memory_swap`). A plan exchanges one item for what it
leaves of it (`Plan.gain`), an operation on a stem does so for every member
(`memory_onStem`), and adding to a key may bring an item in
(`memory_add`). The gains are integers, since items may weigh less
afterwards.
-/

namespace PrefixCache

/-! ## Weights -/

namespace Item

/-- What a slot weighs: the bytes its item counts for. -/
def weight : Option Item → Int
  | some item => item.footprint
  | none => 0

@[simp] theorem weight_some (item : Item) : weight (some item) = item.footprint := rfl

@[simp] theorem weight_none : weight none = 0 := rfl

theorem weight_nonneg (slot : Option Item) : 0 ≤ weight slot := by
  cases slot with
  | none => exact Int.le_refl _
  | some item => exact Int.natCast_nonneg _

theorem sum_footprint_toList (slot : Option Item) :
    (((slot.toList.map footprint).sum : Nat) : Int) = weight slot := by
  cases slot <;> simp

end Item

namespace Store

variable {s s' : Store} {id : NodeId} {key : Bytes}

/-- **The memory changes by what is exchanged.** -/
theorem Sound.memory_swap (h : s.Sound) (h' : s'.Sound) {slot : Option Item}
    (hid : id < s.trie.nodeCount) (htrie : s'.trie = (s.trie.swap id slot).2) :
    (s'.counters.memoryUsed : Int) =
      s.counters.memoryUsed + (Item.weight slot - Item.weight (s.trie.get? id)) := by
  obtain ⟨front, back, hbefore, hafter⟩ := Trie.exists_occupants_swap hid slot
  have hold := Item.sum_footprint_toList (s.trie.get? id)
  have hnew := Item.sum_footprint_toList slot
  rw [h.memory, h'.memory, htrie, hbefore, hafter]
  simp only [List.map_append, List.sum_append]
  omega

end Store

/-! ## Plans -/

namespace Plan

variable {β : Type} {p : Plan β} {s s' : Store} {id : NodeId}

/-- What carrying the plan out at a node adds to the memory. -/
def gain (p : Plan β) (s : Store) (id : NodeId) : Int :=
  Item.weight (p.leaves s id) - Item.weight (s.trie.get? id)

theorem gain_congr (p : Plan β) (hg : s.SameGround s') (hget : s'.trie.get? id = s.trie.get? id) :
    p.gain s' id = p.gain s id := by
  rw [gain, gain, hget, p.leaves_congr hg (Store.liveItem?_congr hg.now hget)]

/-- A plan under which values never get larger gains nothing. -/
theorem gain_nonpos (hp : ∀ n, p.Keeps fun v => v.size ≤ n) (s : Store) (id : NodeId) :
    p.gain s id ≤ 0 := by
  unfold gain
  cases hnew : p.leaves s id with
  | none =>
    have := Item.weight_nonneg (s.trie.get? id)
    rw [Item.weight_none]
    omega
  | some new =>
    obtain ⟨item, hitem, hslot⟩ := Option.bind_eq_some_iff.1 hnew
    have hsize : new.size ≤ item.size :=
      hp item.size s.limits s.now item new (Nat.le_refl _) hslot
    rw [(Store.liveItem?_eq_some.1 hitem).1]
    simp only [Item.weight_some, Item.footprint]
    omega

end Plan

namespace Store

variable {β : Type} {s : Store} {p : Plan β} {weight : Nat} {id : NodeId} {key : Bytes}

/-- **At a node a plan is a swap.** -/
theorem onNode_trie (p : Plan β) (s : Store) (id : NodeId) :
    (s.onNode id p.act).2.trie = (s.trie.swap id (p.leaves s id)).2 := by
  cases h : s.liveItem? id with
  | none =>
    rw [onNode_of_none h, Plan.leaves, h]
    exact liveAt_trie_of_none h
  | some item =>
    rw [onNode_of_some h, Plan.leaves, h]
    exact Change.apply_trie (liveItem?_eq_some.1 h).1 _

theorem memory_onNode (h : s.Sound) (hp : p.Bookable weight) (hid : id < s.trie.nodeCount) :
    ((s.onNode id p.act).2.counters.memoryUsed : Int) = s.counters.memoryUsed + p.gain s id :=
  h.memory_swap (upholds_onNode h hp ([], id)).sound hid (onNode_trie p s id)

/-- **What the members of a stem gain adds up**, since no member notices the
others. -/
theorem memory_foldl_onMember (hp : p.Bookable weight) {ms : List (Bytes × NodeId)}
    (hnodup : (ms.map Prod.snd).Nodup) (hms : ∀ m ∈ ms, m.2 < s.trie.nodeCount)
    (given : List (Bytes × β)) (h : s.Sound) :
    ((ms.foldl (onMember p.act) (given, s)).2.counters.memoryUsed : Int) =
      s.counters.memoryUsed + (ms.map fun m => p.gain s m.2).sum := by
  induction ms generalizing given s with
  | nil => simp
  | cons m ms ih =>
    obtain ⟨hout, hrest⟩ := List.nodup_cons.1 hnodup
    obtain ⟨hfirst, hlater⟩ := List.forall_mem_cons.1 hms
    have hground := sameGround_onNode p s m.2
    have hsame : (ms.map fun m' => p.gain (s.onNode m.2 p.act).2 m'.2) =
        ms.map fun m' => p.gain s m'.2 := by
      refine List.map_congr_left fun m' hm' => p.gain_congr hground ?_
      rw [get?_onNode, if_neg]
      exact fun e => hout (e ▸ List.mem_map_of_mem hm')
    rw [List.foldl_cons, onMember_eq,
      ih hrest (fun m' hm' => hground.shape.count ▸ hlater m' hm') _ (upholds_onNode h hp m).sound,
      hsame, memory_onNode h hp hfirst, List.map_cons, List.sum_cons, Int.add_assoc]

theorem memory_onStem (h : s.Sound) (hp : p.Bookable weight) (stem : Bytes) :
    ((s.onStem stem p.act).2.counters.memoryUsed : Int) =
      s.counters.memoryUsed + ((s.trie.searchNodes stem).map fun m => p.gain s m.2).sum := by
  by_cases hnil : s.trie.searchNodes stem = []
  · simp [onStem_of_nil hnil, hnil]
  · rw [onStem_of_ne_nil hnil]
    refine memory_foldl_onMember hp (Trie.nodup_searchNodes h.arranged stem) (fun m hm => ?_) [] h
    exact h.arranged.findNode?_lt ((Trie.mem_searchNodes h.arranged).1 hm).2.1

theorem memory_onKey (h : s.Sound) (hp : p.Bookable 0) (hf : s.trie.findNode? key = some id) :
    ((s.onKey key p.act).2.counters.memoryUsed : Int) = s.counters.memoryUsed + p.gain s id := by
  rw [onKey, hf]
  exact memory_onNode h hp (h.arranged.findNode?_lt hf)

/-- A plan under which no value gets larger adds nothing at a key. -/
theorem memory_onKey_le (h : s.Sound) (hp : p.Bookable 0)
    (hkeeps : ∀ n, p.Keeps fun v => v.size ≤ n) (key : Bytes) :
    (s.onKey key p.act).2.counters.memoryUsed ≤ s.counters.memoryUsed := by
  cases hf : s.trie.findNode? key with
  | none =>
    simp only [onKey, hf, Nat.le_refl]
  | some id =>
    have hmemory := memory_onKey h hp hf
    have hgain := Plan.gain_nonpos hkeeps s id
    omega

/-- Nor at the members of a stem. -/
theorem memory_onStem_le (h : s.Sound) (hp : p.Bookable weight)
    (hkeeps : ∀ n, p.Keeps fun v => v.size ≤ n) (stem : Bytes) :
    (s.onStem stem p.act).2.counters.memoryUsed ≤ s.counters.memoryUsed := by
  have hmemory := memory_onStem h hp stem
  have hgains := List.sum_le_card_nsmul ((s.trie.searchNodes stem).map fun m => p.gain s m.2) 0
    fun gain hgain => by
      obtain ⟨m, -, rfl⟩ := List.mem_map.1 hgain
      exact Plan.gain_nonpos hkeeps s m.2
  rw [nsmul_zero] at hgains
  omega

end Store

/-! ## Adding -/

/-- What adding to a stored item adds to the memory. A lapsed item goes; a
locked one is left, and so is one that is no number; any other becomes a
counter, which takes eight bytes. -/
def Item.swelling (now : Int) (item : Item) : Int :=
  if item.Lapsed now then -item.footprint
  else if item.Locked now ∨ item.value.asNumber? = none then 0
  else 8 - item.size

theorem Plan.gain_add (delta : Int64) {s : Store} {id : NodeId} {item : Item}
    (hget : s.trie.get? id = some item) : (Plan.add delta).gain s id = item.swelling s.now := by
  by_cases hlapsed : item.Lapsed s.now
  · have hnone : s.liveItem? id = none := by simp [Store.liveItem?, hget, hlapsed]
    simp [gain, leaves, hnone, hget, Item.swelling, hlapsed]
  · have hitem := Store.liveItem?_eq_some.2 ⟨hget, hlapsed⟩
    by_cases hl : item.Locked s.now
    · simp [gain, leaves, hitem, hget, Item.swelling, hlapsed, hl, add, unlessLocked, Change.slot]
    cases hn : item.value.asNumber? with
    | none =>
      simp [gain, leaves, hitem, hget, Item.swelling, hlapsed, hl, add, unlessLocked, Change.slot,
        hn]
    | some n =>
      have hslot : (Plan.add delta).leaves s id =
          some { item.touch s.now with value := .number (n + delta) } := by
        simp [leaves, hitem, add, unlessLocked, hl, hn, Change.slot]
      rw [gain, hslot, hget, Item.swelling, if_neg hlapsed, if_neg (by simp [hl, hn])]
      simp only [Item.weight_some, Item.footprint, Item.size, Value.size]
      omega

namespace Store

variable {s : Store}

theorem memory_liveKey (h : s.Sound) (key : Bytes) :
    ((s.liveKey key).2.counters.memoryUsed : Int) =
      s.counters.memoryUsed + (Item.weight (s.liveUnder? key) - Item.weight (s.trie.find? key)) := by
  cases hf : s.trie.findNode? key with
  | none => simp [liveKey_of_none hf, liveUnder?, Trie.find?, hf]
  | some id =>
    have hsound := (upholds_liveAt h id).sound
    rw [liveKey_of_some hf, liveUnder?, hf, Option.bind_some, Trie.find?_of_findNode? hf]
    refine h.memory_swap hsound (h.arranged.findNode?_lt hf) ?_
    -- looking at a live item changes nothing, and swapping it for itself neither
    cases hlive : s.liveItem? id with
    | none => exact liveAt_trie_of_none hlive
    | some item =>
      rw [liveAt_of_some hlive, ← (liveItem?_eq_some.1 hlive).1]
      exact Trie.swap_get?.symm

theorem memory_bringIn (h : s.Sound) (key : Bytes) {full : Nat} {value : Value}
    (hfull : value.encoding = .compressed → 0 < full) (ttl : Int) :
    ((s.bringIn key full value ttl).counters.memoryUsed : Int) =
      s.counters.memoryUsed + ((s.fresh value ttl).footprint - Item.weight (s.trie.find? key)) := by
  obtain ⟨u, id, hgrows, hf, heq⟩ := Trie.exists_insert h.arranged key (s.fresh value ttl)
  have hsound : (s.bringIn key full value ttl).Sound := (upholds_bringIn h hfull).sound
  rw [← hgrows.find? h.arranged, Trie.find?_of_findNode? hf, ← Item.weight_some]
  -- the exchange takes place when the trie has grown already
  refine (h.grow hgrows).memory_swap hsound (hgrows.arranged.findNode?_lt hf) ?_
  rw [bringIn_trie, heq]

/-- What adding to a key adds to the memory. Where nothing is stored, a
counter comes in. -/
def swellingUnder (s : Store) (key : Bytes) : Int :=
  match s.trie.find? key with
  | none => 8 + Item.overhead
  | some item => if item.Lapsed s.now then 8 - item.size else item.swelling s.now

theorem memory_add (h : s.Sound) (key : Bytes) (delta : Int64) :
    ((s.add key delta).2.counters.memoryUsed : Int) =
      s.counters.memoryUsed + s.swellingUnder key := by
  cases hlive : s.liveUnder? key with
  | some item =>
    obtain ⟨hitem, hlapsed⟩ := liveUnder?_eq_some.1 hlive
    obtain ⟨id, hf, hget⟩ := Trie.find?_eq_some.1 hitem
    rw [add_of_some hlive, memory_onKey h (Plan.bookable_add delta) hf, Plan.gain_add delta hget,
      swellingUnder, hitem]
    simp only [if_neg hlapsed]
  | none =>
    -- what has lapsed goes first, and then a counter comes in
    have hgone : (s.liveKey key).2.trie.find? key = none := by
      rw [find?_liveKey h.arranged, if_pos rfl, hlive]
    have hlook := memory_liveKey h key
    have hnumber : (Value.number delta).encoding = .compressed → 0 < 0 := nofun
    have hbring := memory_bringIn (upholds_liveKey h key).sound key hnumber (-1)
    rw [hlive, Item.weight_none] at hlook
    rw [hgone, Item.weight_none] at hbring
    rw [add_of_none hlive, hbring, hlook, swellingUnder]
    cases hf : s.trie.find? key with
    | none =>
      simp only [Item.weight_none, fresh, Item.footprint, Item.size, Item.create, Value.size]
      omega
    | some item =>
      have hlapsed : item.Lapsed s.now := by
        by_contra hc
        rw [liveUnder?_eq_some.2 ⟨hf, hc⟩] at hlive
        cases hlive
      simp only [if_pos hlapsed, Item.weight_some, fresh, Item.footprint, Item.size, Item.create,
        Value.size]
      omega

theorem memory_addAll (h : s.Sound) (stem : Bytes) (delta : Int64) :
    ((s.onStem stem (Plan.add delta).act).2.counters.memoryUsed : Int) =
      s.counters.memoryUsed + ((s.trie.search stem).map fun m => m.2.swelling s.now).sum := by
  have hgains : ((s.trie.searchNodes stem).map fun m => (Plan.add delta).gain s m.2) =
      (s.trie.search stem).map fun m => m.2.swelling s.now := by
    have hmembers : ∀ m ∈ s.trie.searchNodes stem, (s.trie.get? m.2).isSome := fun m hm =>
      ((Trie.mem_searchNodes h.arranged).1 hm).2.2
    rw [Trie.search]
    generalize s.trie.searchNodes stem = ms at hmembers
    induction ms with
    | nil => rfl
    | cons m ms ih =>
      obtain ⟨hfirst, hrest⟩ := List.forall_mem_cons.1 hmembers
      obtain ⟨item, hget⟩ := Option.isSome_iff_exists.1 hfirst
      simp only [List.map_cons, List.filterMap_cons, hget, Option.map_some, ih hrest,
        Plan.gain_add delta hget]
  rw [memory_onStem h (Plan.bookable_add delta), hgains]

end Store

end PrefixCache

import PrefixCache.Store
import PrefixCache.Proofs.Trie.Order
import PrefixCache.Proofs.Trie.Growth
/-!
# What actions do

An action answers and changes one item, and both can be read off the item,
the limits and the clock: it has a *plan*. A plan names one of four
changes (`Change`), and a change is a swap of one slot (`apply_trie`). So
what an action does at a node is known slot by slot (`get?_onNode`), and
what it does to all members of a stem is the same, member by member, with
no member noticing the others (`onStem_of_ne_nil`, `get?_onStem`).
-/

namespace PrefixCache

/-! ## The ground of a store -/

/-- The second store has the same limits, the same clock and the same
nodes as the first; items and counters may differ. -/
structure Store.SameGround (s s' : Store) : Prop where
  shape : s.trie.SameShape s'.trie
  limits : s'.limits = s.limits
  now : s'.now = s.now

namespace Store

variable {s s' s'' : Store} {id : NodeId}

namespace SameGround

theorem refl (s : Store) : s.SameGround s := ⟨.refl _, rfl, rfl⟩

theorem symm (h : s.SameGround s') : s'.SameGround s :=
  ⟨h.shape.symm, h.limits.symm, h.now.symm⟩

theorem trans (h : s.SameGround s') (h' : s'.SameGround s'') : s.SameGround s'' :=
  ⟨h.shape.trans h'.shape, h'.limits.trans h.limits, h'.now.trans h.now⟩

/-- What is stored under a key is at the same node as before. -/
theorem find?_eq (h : s.SameGround s') (hs : s.trie.Arranged) (key : Bytes) :
    s'.trie.find? key = (s.trie.findNode? key).bind s'.trie.get? := by
  rw [Trie.find?, Trie.findNode?_congr hs h.shape]

/-- Data is kept in the same form. -/
theorem encode_eq (h : s.SameGround s') (data : Bytes) : s'.encode data = s.encode data := by
  rw [encode, encode, h.limits]

end SameGround

/-- The item of a node, unless it has lapsed. -/
def liveItem? (s : Store) (id : NodeId) : Option Item :=
  (s.trie.get? id).filter fun item => ¬ item.Lapsed s.now

theorem liveItem?_eq_some {item : Item} :
    s.liveItem? id = some item ↔ s.trie.get? id = some item ∧ ¬ item.Lapsed s.now := by
  simp [liveItem?, Option.filter_eq_some_iff]

theorem liveItem?_congr (hnow : s'.now = s.now) (hget : s'.trie.get? id = s.trie.get? id) :
    s'.liveItem? id = s.liveItem? id := by
  rw [liveItem?, liveItem?, hnow, hget]

theorem liveItem?_of_get?_none (h : s.trie.get? id = none) : s.liveItem? id = none := by
  rw [liveItem?, h, Option.filter_none]

/-! ## Steps of operations -/

@[simp] theorem discard_trie (s : Store) (old : Option Item) : (s.discard old).trie = s.trie := by
  cases old <;> rfl

@[simp] theorem discard_limits (s : Store) (old : Option Item) :
    (s.discard old).limits = s.limits := by
  cases old <;> rfl

@[simp] theorem discard_now (s : Store) (old : Option Item) : (s.discard old).now = s.now := by
  cases old <;> rfl

@[simp] theorem countCompression_trie (s : Store) (full : Nat) (v : Value) :
    (s.countCompression full v).trie = s.trie := by
  cases v <;> rfl

@[simp] theorem countCompression_limits (s : Store) (full : Nat) (v : Value) :
    (s.countCompression full v).limits = s.limits := by
  cases v <;> rfl

@[simp] theorem countCompression_now (s : Store) (full : Nat) (v : Value) :
    (s.countCompression full v).now = s.now := by
  cases v <;> rfl

@[simp] theorem create_snd_trie (s : Store) (v : Value) (ttl : Int) :
    (s.create v ttl).2.trie = s.trie := rfl

@[simp] theorem create_snd_limits (s : Store) (v : Value) (ttl : Int) :
    (s.create v ttl).2.limits = s.limits := rfl

@[simp] theorem create_snd_now (s : Store) (v : Value) (ttl : Int) :
    (s.create v ttl).2.now = s.now := rfl

@[simp] theorem create_fst (s : Store) (v : Value) (ttl : Int) :
    (s.create v ttl).1 = Item.create v (min ttl s.limits.maxItemTtl) s.now := rfl

@[simp] theorem destroyAt_trie (s : Store) (id : NodeId) :
    (s.destroyAt id).trie = (s.trie.swap id none).2 :=
  discard_trie _ _

@[simp] theorem destroyAt_limits (s : Store) (id : NodeId) : (s.destroyAt id).limits = s.limits :=
  discard_limits _ _

@[simp] theorem destroyAt_now (s : Store) (id : NodeId) : (s.destroyAt id).now = s.now :=
  discard_now _ _

@[simp] theorem insertAt_trie (s : Store) (id : NodeId) (item : Item) :
    (s.insertAt id item).trie = (s.trie.swap id (some item)).2 :=
  discard_trie _ _

@[simp] theorem insertAt_limits (s : Store) (id : NodeId) (item : Item) :
    (s.insertAt id item).limits = s.limits :=
  discard_limits _ _

@[simp] theorem insertAt_now (s : Store) (id : NodeId) (item : Item) :
    (s.insertAt id item).now = s.now :=
  discard_now _ _

/-! ## Looking at a node -/

theorem liveAt_fst (s : Store) (id : NodeId) : (s.liveAt id).1 = s.liveItem? id := by
  unfold liveAt liveItem?
  cases s.trie.get? id with
  | none => rfl
  | some item => by_cases h : item.Lapsed s.now <;> simp [h, Option.filter]

/-- Looking at a live item changes nothing. -/
theorem liveAt_of_some {item : Item} (h : s.liveItem? id = some item) :
    s.liveAt id = (some item, s) := by
  obtain ⟨hget, hlive⟩ := liveItem?_eq_some.1 h
  rw [liveAt, hget]
  exact if_neg hlive

/-- Looking at a node without a live item leaves it empty. -/
theorem liveAt_trie_of_none (h : s.liveItem? id = none) :
    (s.liveAt id).2.trie = (s.trie.swap id none).2 := by
  unfold liveAt
  cases hget : s.trie.get? id with
  | none => exact (hget ▸ Trie.swap_get?).symm
  | some item =>
    have hlapsed : item.Lapsed s.now := by
      by_contra hc
      rw [liveItem?_eq_some.2 ⟨hget, hc⟩] at h
      cases h
    simp [hlapsed]

theorem sameGround_liveAt (s : Store) (id : NodeId) : s.SameGround (s.liveAt id).2 := by
  cases h : s.liveItem? id with
  | some item =>
    rw [liveAt_of_some h]
    exact .refl s
  | none =>
    refine ⟨liveAt_trie_of_none h ▸ (Trie.sameShape_swap _ _ _).symm, ?_, ?_⟩ <;>
      (unfold liveAt; cases s.trie.get? id with
        | none => rfl
        | some item => by_cases hl : item.Lapsed s.now <;> simp [hl])

/-- **Looking at a node empties it of a lapsed item**, and no other node. -/
theorem get?_liveAt (s : Store) (id j : NodeId) :
    (s.liveAt id).2.trie.get? j = if id = j then s.liveItem? j else s.trie.get? j := by
  cases h : s.liveItem? id with
  | some item =>
    rw [liveAt_of_some h]
    split
    · next hj => rw [← hj, h, (liveItem?_eq_some.1 h).1]
    · rfl
  | none =>
    rw [liveAt_trie_of_none h]
    split
    · next hj =>
      rw [← hj, h]
      by_cases hid : id < s.trie.nodeCount
      · exact Trie.get?_swap_self hid
      · rw [Trie.swap_of_le (Nat.le_of_not_lt hid), Trie.get?_of_le (Nat.le_of_not_lt hid)]
    · next hj => exact Trie.get?_swap_ne hj

end Store

/-! ## Changes -/

/-- What an action does to the item it is given. -/
inductive Change where
  | keep
  /-- Puts a changed item in its place. -/
  | revise (new : Item)
  | remove
  /-- Puts a new item in its place, which holds the kept form of `full`
  bytes. -/
  | renew (full : Nat) (value : Value)

namespace Change

/-- Carries a change out. -/
def apply (c : Change) (id : NodeId) (item : Item) (s : Store) : Store :=
  match c with
  | keep => s
  | revise new => s.reviseAt id item new
  | remove => s.destroyAt id
  | renew full value =>
    let (fresh, s) := (s.countCompression full value).create value (-1)
    s.insertAt id fresh

/-- What a change leaves in the slot. -/
def slot (c : Change) (limits : StoreLimits) (now : Int) (item : Item) : Option Item :=
  match c with
  | keep => some item
  | revise new => some new
  | remove => none
  | renew _ value => some (Item.create value (min (-1) limits.maxItemTtl) now)

variable {s : Store} {id : NodeId} {item : Item}

/-- **A change is a swap.** -/
theorem apply_trie (h : s.trie.get? id = some item) (c : Change) :
    (c.apply id item s).trie = (s.trie.swap id (c.slot s.limits s.now item)).2 := by
  cases c with
  | keep => exact (h ▸ Trie.swap_get?).symm
  | revise new => rfl
  | remove => exact Store.destroyAt_trie s id
  | renew full value => simp [apply, slot]

theorem sameGround_apply (h : s.trie.get? id = some item) (c : Change) :
    s.SameGround (c.apply id item s) := by
  refine ⟨apply_trie h c ▸ (Trie.sameShape_swap _ _ _).symm, ?_, ?_⟩ <;>
    cases c <;> simp [apply, Store.reviseAt]

end Change

/-! ## Plans -/

theorem ok_of_toOption {ε α : Type} {r : Except ε α} {a : α} (h : r.toOption = some a) :
    r = .ok a := by
  cases r <;> cases h
  rfl

/-- What an action answers and changes, read off the item. -/
abbrev Plan (β : Type) := StoreLimits → Int → Item → Except StoreError β × Change

namespace Plan

variable {β : Type}

/-- The action that follows a plan. -/
def act (p : Plan β) : Action β := fun id item s =>
  ((p s.limits s.now item).1, (p s.limits s.now item).2.apply id item s)

/-- The plan, refused when the item is locked. -/
def unlessLocked (p : Plan β) : Plan β := fun limits now item =>
  if item.Locked now then (.error .locked, .keep) else p limits now item

/-- A plan for a change of the item in place. -/
def revise (change : StoreLimits → Int → Item → Item) : Plan Unit := fun limits now item =>
  (.ok (), .revise (change limits now item))

def keep : Plan Unit := fun _ _ _ => (.ok (), .keep)

def ask (a : Attribute) : Plan Int := fun _ now item => (.ok (a.of item now), .keep)

def read : Plan Value := fun _ now item =>
  ((Store.expose item.value).mapError fun _ => .corrupt, .revise (item.touch now))

def delete : Plan Unit := unlessLocked fun _ _ _ => (.ok (), .remove)

def live (ttl : Int) : Plan Unit := unlessLocked <| revise fun limits now item =>
  { item.restart now with ttl := min ttl limits.maxItemTtl }

def lock (seconds : Int) : Plan Unit := unlessLocked <| revise fun _ now item =>
  { item.restart now with lock := if seconds < 0 then Item.permanentLock else seconds }

def unlock : Plan Unit := revise fun _ now item => { item.touch now with lock := 0 }

def add (delta : Int64) : Plan Int64 := unlessLocked fun _ now item =>
  match item.value.asNumber? with
  | none => (.error .notANumber, .keep)
  | some n => (.ok (n + delta), .revise { item.touch now with value := .number (n + delta) })

def replace (full : Nat) (value : Value) : Plan Unit := unlessLocked fun _ _ _ =>
  (.ok (), .renew full value)

/-! ### Every action follows its plan -/

theorem act_unlessLocked (p : Plan β) : p.unlessLocked.act = Action.unlessLocked p.act := by
  funext id item s
  by_cases h : item.Locked s.now <;> simp [act, unlessLocked, Action.unlessLocked, h, Change.apply]

@[simp] theorem act_keep : keep.act = Action.keep := rfl

@[simp] theorem act_ask (a : Attribute) : (ask a).act = Action.ask a := rfl

@[simp] theorem act_read : read.act = Action.read := by
  funext id item s
  simp only [act, read, Action.read, Change.apply]
  cases Store.expose item.value <;> rfl

@[simp] theorem act_delete : delete.act = Action.delete := act_unlessLocked _

@[simp] theorem act_live (ttl : Int) : (live ttl).act = Action.live ttl := act_unlessLocked _

@[simp] theorem act_lock (seconds : Int) : (lock seconds).act = Action.lock seconds :=
  act_unlessLocked _

@[simp] theorem act_unlock : unlock.act = Action.unlock := rfl

@[simp] theorem act_add (delta : Int64) : (add delta).act = Action.add delta := by
  rw [add, act_unlessLocked, Action.add]
  congr 1
  funext id item s
  simp only [act]
  cases item.value.asNumber? <;> rfl

@[simp] theorem act_replace (full : Nat) (value : Value) :
    (replace full value).act = Action.replace full value :=
  act_unlessLocked _

/-! ### What a plan does to a store -/

/-- What a plan leaves at a node. -/
def leaves (p : Plan β) (s : Store) (id : NodeId) : Option Item :=
  (s.liveItem? id).bind fun item => (p s.limits s.now item).2.slot s.limits s.now item

/-- What a plan gives for a member, when it succeeds. -/
def gives (p : Plan β) (s : Store) (m : Bytes × NodeId) : Option (Bytes × β) :=
  (s.liveItem? m.2).bind fun item => (p s.limits s.now item).1.toOption.map fun b => (m.1, b)

/-- The same, read off the item of the member. -/
def given (p : Plan β) (s : Store) (m : Bytes × Item) : Option (Bytes × β) :=
  if m.2.Lapsed s.now then none else (p s.limits s.now m.2).1.toOption.map fun b => (m.1, b)

theorem filterMap_gives (p : Plan β) (s : Store) (stem : Bytes) :
    (s.trie.searchNodes stem).filterMap (p.gives s) =
      (s.trie.search stem).filterMap (p.given s) := by
  rw [Trie.search, List.filterMap_filterMap]
  refine List.filterMap_congr fun m _ => ?_
  simp only [gives, Store.liveItem?]
  cases s.trie.get? m.2 with
  | none => rfl
  | some item => by_cases h : item.Lapsed s.now <;> simp [given, h, Option.filter]

theorem leaves_congr (p : Plan β) {s s' : Store} {id : NodeId} (hg : s.SameGround s')
    (h : s'.liveItem? id = s.liveItem? id) : p.leaves s' id = p.leaves s id := by
  rw [leaves, leaves, h, hg.limits, hg.now]

theorem gives_congr (p : Plan β) {s s' : Store} {m : Bytes × NodeId} (hg : s.SameGround s')
    (h : s'.liveItem? m.2 = s.liveItem? m.2) : p.gives s' m = p.gives s m := by
  rw [gives, gives, h, hg.limits, hg.now]

end Plan

namespace Store

variable {β : Type} {s : Store} {id : NodeId} (p : Plan β)

/-! ## At a node -/

theorem onNode_of_none (h : s.liveItem? id = none) (act : Action β) :
    s.onNode id act = (.error .notFound, (s.liveAt id).2) := by
  have := liveAt_fst s id
  rw [h] at this
  unfold onNode
  generalize s.liveAt id = r at this
  obtain ⟨o, s'⟩ := r
  subst this
  rfl

theorem onNode_of_some {item : Item} (h : s.liveItem? id = some item) (act : Action β) :
    s.onNode id act = act id item s := by
  rw [onNode, liveAt_of_some h]

theorem sameGround_onNode (s : Store) (id : NodeId) : s.SameGround (s.onNode id p.act).2 := by
  cases h : s.liveItem? id with
  | none =>
    rw [onNode_of_none h]
    exact sameGround_liveAt s id
  | some item =>
    rw [onNode_of_some h]
    exact Change.sameGround_apply (liveItem?_eq_some.1 h).1 _

/-- **A plan is carried out at its own node only.** -/
theorem get?_onNode (s : Store) (id j : NodeId) :
    (s.onNode id p.act).2.trie.get? j = if id = j then p.leaves s j else s.trie.get? j := by
  cases h : s.liveItem? id with
  | none =>
    rw [onNode_of_none h, get?_liveAt]
    split
    · next hj => rw [← hj, Plan.leaves, h, Option.bind_none]
    · rfl
  | some item =>
    have hget := (liveItem?_eq_some.1 h).1
    rw [onNode_of_some h]
    simp only [Plan.act]
    rw [Change.apply_trie hget]
    split
    · next hj =>
      rw [← hj, Trie.get?_swap_self (Trie.lt_nodeCount_of_get? hget), Plan.leaves, h,
        Option.bind_some]
    · next hj => exact Trie.get?_swap_ne hj

theorem onMember_eq (given : List (Bytes × β)) (s : Store) (m : Bytes × NodeId) :
    onMember p.act (given, s) m =
      ((p.gives s m).toList ++ given, (s.onNode m.2 p.act).2) := by
  cases h : s.liveItem? m.2 with
  | none => simp [onMember, onNode_of_none h, Plan.gives, h]
  | some item =>
    simp only [onMember, onNode_of_some h, Plan.gives, h, Plan.act, Option.bind_some]
    cases (p s.limits s.now item).1 <;> simp [Except.toOption]

/-! ## On a stem -/

theorem liveItem?_onNode {j : NodeId} (h : id ≠ j) :
    (s.onNode id p.act).2.liveItem? j = s.liveItem? j :=
  liveItem?_congr (sameGround_onNode p s id).now (by rw [get?_onNode, if_neg h])

/-- What is done to one member changes nothing for the others. -/
theorem filterMap_gives_onNode {ms : List (Bytes × NodeId)} (h : id ∉ ms.map Prod.snd) :
    ms.filterMap (p.gives (s.onNode id p.act).2) = ms.filterMap (p.gives s) := by
  refine List.filterMap_congr fun m hm => p.gives_congr (sameGround_onNode p s id) ?_
  refine liveItem?_onNode p fun e => ?_
  exact h (e ▸ List.mem_map_of_mem hm)

/-- **No member notices the others**: every member gets what the plan gives
it in the store as it was, and every slot is left as the plan leaves it
there. -/
theorem foldl_onMember {ms : List (Bytes × NodeId)} (hnodup : (ms.map Prod.snd).Nodup)
    (given : List (Bytes × β)) (s : Store) :
    (ms.foldl (onMember p.act) (given, s)).1 = (ms.filterMap (p.gives s)).reverse ++ given ∧
      s.SameGround (ms.foldl (onMember p.act) (given, s)).2 ∧
      ∀ j, (ms.foldl (onMember p.act) (given, s)).2.trie.get? j =
        if j ∈ ms.map Prod.snd then p.leaves s j else s.trie.get? j := by
  induction ms generalizing given s with
  | nil => exact ⟨rfl, .refl s, fun j => by simp⟩
  | cons m ms ih =>
    obtain ⟨hout, hrest⟩ := List.nodup_cons.1 hnodup
    -- the first member is not among the rest, so they are as they were
    have hground := sameGround_onNode p s m.2
    rw [List.foldl_cons, onMember_eq]
    obtain ⟨hgiven, hsame, hslots⟩ := ih hrest ((p.gives s m).toList ++ given)
      (s.onNode m.2 p.act).2
    refine ⟨?_, hground.trans hsame, fun j => ?_⟩
    · rw [hgiven, filterMap_gives_onNode p hout, List.filterMap_cons]
      cases p.gives s m <;> simp
    · rw [hslots, get?_onNode]
      by_cases hj : m.2 = j
      · subst hj
        simp [hout]
      · rw [if_neg hj, p.leaves_congr hground (liveItem?_onNode p hj)]
        simp only [List.map_cons, List.mem_cons, Ne.symm hj, false_or]

theorem onStem_of_nil {stem : Bytes} (h : s.trie.searchNodes stem = []) (act : Action β) :
    s.onStem stem act = (.error .notFound, s) := by
  rw [onStem, h]

/-- The members of a stem, one after the other. -/
theorem onStem_of_ne_nil {stem : Bytes} (h : s.trie.searchNodes stem ≠ []) (act : Action β) :
    s.onStem stem act =
      (.ok ((s.trie.searchNodes stem).foldl (onMember act) ([], s)).1.reverse,
        ((s.trie.searchNodes stem).foldl (onMember act) ([], s)).2) := by
  unfold onStem
  split
  · next hnil => exact absurd hnil h
  · rfl

/-- What the members are given. -/
theorem onStem_fst (hs : s.trie.Arranged) {stem : Bytes} (h : s.trie.searchNodes stem ≠ []) :
    (s.onStem stem p.act).1 = .ok ((s.trie.searchNodes stem).filterMap (p.gives s)) := by
  rw [onStem_of_ne_nil h]
  simp only
  rw [(foldl_onMember p (Trie.nodup_searchNodes hs stem) [] s).1, List.append_nil,
    List.reverse_reverse]

theorem sameGround_onStem (hs : s.trie.Arranged) (stem : Bytes) :
    s.SameGround (s.onStem stem p.act).2 := by
  by_cases h : s.trie.searchNodes stem = []
  · rw [onStem_of_nil h]
    exact .refl s
  · rw [onStem_of_ne_nil h]
    exact (foldl_onMember p (Trie.nodup_searchNodes hs stem) [] s).2.1

theorem leaves_of_get?_none (h : s.trie.get? id = none) : p.leaves s id = none := by
  rw [Plan.leaves, liveItem?_of_get?_none h, Option.bind_none]

/-- **A plan is carried out at the nodes below the stem only**, and leaves
nothing where nothing is stored. -/
theorem get?_onStem (hs : s.trie.Arranged) (stem : Bytes) (j : NodeId) :
    (s.onStem stem p.act).2.trie.get? j =
      if j ∈ (s.trie.nodesBelow stem).map Prod.snd then p.leaves s j else s.trie.get? j := by
  -- the members are the occupied nodes among those below the stem
  have hmem : j ∈ (s.trie.searchNodes stem).map Prod.snd ↔
      j ∈ (s.trie.nodesBelow stem).map Prod.snd ∧ (s.trie.get? j).isSome := by
    rw [Trie.searchNodes_eq]
    simp only [List.mem_map, List.mem_filter]
    constructor
    · rintro ⟨m, ⟨hm, hsome⟩, rfl⟩
      exact ⟨⟨m, hm, rfl⟩, hsome⟩
    · rintro ⟨⟨m, hm, rfl⟩, hsome⟩
      exact ⟨m, ⟨hm, hsome⟩, rfl⟩
  have hslots : (s.onStem stem p.act).2.trie.get? j =
      if j ∈ (s.trie.searchNodes stem).map Prod.snd then p.leaves s j else s.trie.get? j := by
    by_cases h : s.trie.searchNodes stem = []
    · rw [onStem_of_nil h, h]
      rfl
    · rw [onStem_of_ne_nil h]
      exact (foldl_onMember p (Trie.nodup_searchNodes hs stem) [] s).2.2 j
  rw [hslots]
  by_cases hbelow : j ∈ (s.trie.nodesBelow stem).map Prod.snd
  · cases hget : s.trie.get? j with
    | none => rw [leaves_of_get?_none p hget, ite_self, ite_self]
    | some item => rw [if_pos (hmem.2 ⟨hbelow, by simp [hget]⟩), if_pos hbelow]
  · rw [if_neg fun h => hbelow (hmem.1 h).1, if_neg hbelow]

end Store

end PrefixCache

import PrefixCache.Proofs.Store.Keyed
import PrefixCache.Proofs.Store.Values
/-!
# Stores that keep values in different forms

Two stores are twins when they show the same: they have the same nodes and
the same clock, and the items at a node agree once their values are exposed
(`Item.shown`). How a value is kept does not matter, and neither does what
has been counted. An operation that asks about neither answers both alike,
and leaves twins again, as long as what it brings in survives compression
and the budget refuses it in neither store (`KeyOperation.twin_run`,
`StemOperation.twin_run`).

Adding is left out, since a number that was compressed is not read as one.
So are the attributes that say how a value is kept.
-/

namespace PrefixCache

/-! ## What is shown -/

/-- The value as it is shown, or as it is kept when it cannot be read. -/
def Value.shown (v : Value) : Value :=
  match Store.expose v with
  | .ok shown => shown
  | .error _ => v

/-- The item with its value as it is shown. -/
def Item.shown (i : Item) : Item := { i with value := i.value.shown }

/-- Showing a value does not change how it is read. -/
theorem Store.expose_shown (v : Value) : expose v.shown = expose v := by
  cases v with
  | plain data => rfl
  | number n => rfl
  | compressed packed =>
    cases hr : Compression.restore packed with
    | error e => simp only [Value.shown, expose, hr, Except.map]
    | ok data => simp only [Value.shown, expose, hr, Except.map]

/-- What survives compression is shown as it came. -/
theorem Store.shown_encode (s : Store) {data : Bytes} (h : Compression.Restores data) :
    (s.encode data).shown = .plain data := by
  rw [Value.shown, s.expose_encode h]

namespace Item

variable {i j : Item}

theorem expose_congr (h : j.shown = i.shown) : Store.expose j.value = Store.expose i.value := by
  rw [← Store.expose_shown j.value, ← Store.expose_shown i.value]
  exact congrArg (fun k => Store.expose k.value) h

theorem locked_congr (h : j.shown = i.shown) (now : Int) : j.Locked now ↔ i.Locked now := by
  change j.shown.Locked now ↔ i.shown.Locked now
  rw [h]

theorem lapsed_congr (h : j.shown = i.shown) (now : Int) : j.Lapsed now ↔ i.Lapsed now := by
  change j.shown.Lapsed now ↔ i.shown.Lapsed now
  rw [h]

/-- A slot that shows the same as another is empty like it, or holds an item
that shows the same. -/
theorem shown_cases {x y : Option Item} (h : y.map shown = x.map shown) :
    (x = none ∧ y = none) ∨ ∃ i j, x = some i ∧ y = some j ∧ j.shown = i.shown := by
  cases x with
  | none => exact .inl ⟨rfl, Option.map_eq_none_iff.1 h⟩
  | some i =>
    obtain ⟨j, rfl, hj⟩ := Option.map_eq_some_iff.1 h
    exact .inr ⟨i, j, rfl, rfl, hj⟩

end Item

/-- An attribute that does not say how the value is kept is shown as it
is. -/
theorem Attribute.of_shown {a : Attribute} (hsize : a ≠ .size) (hencoding : a ≠ .encoding)
    (i : Item) (now : Int) : a.of i.shown now = a.of i now := by
  cases a with
  | size => exact absurd rfl hsize
  | encoding => exact absurd rfl hencoding
  | _ => rfl

/-! ## Plans -/

namespace Plan

variable {β : Type} {p q : Plan β}

/-- At items that show the same, the plans answer the same and leave slots
that show the same. Of the limits they notice the longest time to live
only. -/
def Matches (p q : Plan β) : Prop :=
  ∀ ⦃limits limits' : StoreLimits⦄ ⦃item item' : Item⦄ (now : Int),
    limits'.maxItemTtl = limits.maxItemTtl → item'.shown = item.shown →
    (q limits' now item').1 = (p limits now item).1 ∧
      ((q limits' now item').2.slot limits' now item').map Item.shown =
        ((p limits now item).2.slot limits now item).map Item.shown

theorem Matches.unlessLocked (h : p.Matches q) : p.unlessLocked.Matches q.unlessLocked := by
  intro limits limits' item item' now hlimits hshown
  unfold Plan.unlessLocked
  by_cases hl : item.Locked now
  · rw [if_pos hl, if_pos ((Item.locked_congr hshown now).2 hl)]
    exact ⟨rfl, congrArg some hshown⟩
  · rw [if_neg hl, if_neg (mt (Item.locked_congr hshown now).1 hl)]
    exact h now hlimits hshown

theorem matches_revise {change : StoreLimits → Int → Item → Item}
    (h : ∀ ⦃limits limits' : StoreLimits⦄ ⦃item item' : Item⦄ (now : Int),
      limits'.maxItemTtl = limits.maxItemTtl → item'.shown = item.shown →
      (change limits' now item').shown = (change limits now item).shown) :
    (revise change).Matches (revise change) :=
  fun _ _ _ _ now hlimits hshown => ⟨rfl, congrArg some (h now hlimits hshown)⟩

theorem matches_keep : keep.Matches keep :=
  fun _ _ _ _ _ _ hshown => ⟨rfl, congrArg some hshown⟩

theorem matches_ask {a : Attribute} (hsize : a ≠ .size) (hencoding : a ≠ .encoding) :
    (ask a).Matches (ask a) := by
  intro limits limits' item item' now _ hshown
  refine ⟨congrArg Except.ok ?_, congrArg some hshown⟩
  rw [← Attribute.of_shown hsize hencoding item', hshown, Attribute.of_shown hsize hencoding]

theorem matches_read : read.Matches read := fun _ _ _ _ now _ hshown =>
  ⟨congrArg (Except.mapError _) (Item.expose_congr hshown),
    congrArg (fun i : Item => some (i.touch now)) hshown⟩

theorem matches_delete : delete.Matches delete :=
  Matches.unlessLocked fun _ _ _ _ _ _ _ => ⟨rfl, rfl⟩

theorem matches_live (ttl : Int) : (live ttl).Matches (live ttl) := by
  refine Matches.unlessLocked (matches_revise fun limits _ _ _ now hlimits hshown => ?_)
  have hsame := congrArg
    (fun i : Item => { i.restart now with ttl := min ttl limits.maxItemTtl }) hshown
  rw [hlimits]
  exact hsame

theorem matches_lock (seconds : Int) : (lock seconds).Matches (lock seconds) :=
  Matches.unlessLocked <| matches_revise fun _ _ _ _ now _ hshown =>
    congrArg (fun i : Item =>
      { i.restart now with lock := if seconds < 0 then Item.permanentLock else seconds }) hshown

theorem matches_unlock : unlock.Matches unlock :=
  matches_revise fun _ _ _ _ now _ hshown =>
    congrArg (fun i : Item => { i.touch now with lock := 0 }) hshown

/-- Replacing by values that show the same. -/
theorem matches_replace {v w : Value} (hvalue : w.shown = v.shown) (full : Nat) :
    (replace full v).Matches (replace full w) := by
  refine Matches.unlessLocked ?_
  intro limits limits' item item' now hlimits _
  refine ⟨rfl, ?_⟩
  simp only [Change.slot, Option.map_some, hlimits, Item.shown, Item.create, hvalue]

end Plan

/-! ## Twins -/

namespace Store

/-- The stores show the same at every node. -/
structure Twin (s t : Store) : Prop where
  shape : s.trie.SameShape t.trie
  now : t.now = s.now
  maxItemTtl : t.limits.maxItemTtl = s.limits.maxItemTtl
  shown (id : NodeId) : (t.trie.get? id).map Item.shown = (s.trie.get? id).map Item.shown

namespace Twin

variable {β : Type} {p q : Plan β} {s t : Store}

theorem refl (s : Store) : s.Twin s := ⟨.refl _, rfl, rfl, fun _ => rfl⟩

/-- What comes of twins on their own ground are twins, if it shows the
same. -/
theorem step {s' t' : Store} (h : s.Twin t) (hs : s.SameGround s') (ht : t.SameGround t')
    (hshown : ∀ id, (t'.trie.get? id).map Item.shown = (s'.trie.get? id).map Item.shown) :
    s'.Twin t' where
  shape := (hs.shape.symm.trans h.shape).trans ht.shape
  now := by rw [ht.now, h.now, hs.now]
  maxItemTtl := by rw [ht.limits, h.maxItemTtl, hs.limits]
  shown := hshown

theorem findNode? (h : s.Twin t) (hs : s.trie.Arranged) (key : Bytes) :
    t.trie.findNode? key = s.trie.findNode? key :=
  (Trie.findNode?_congr hs h.shape key).symm

/-- The same nodes hold live items, and these show the same. -/
theorem liveItem? (h : s.Twin t) (id : NodeId) :
    (t.liveItem? id).map Item.shown = (s.liveItem? id).map Item.shown := by
  rw [Store.liveItem?, Store.liveItem?, h.now]
  rcases Item.shown_cases (h.shown id) with ⟨hx, hy⟩ | ⟨i, j, hx, hy, hshown⟩
  · rw [hx, hy]
  · by_cases hl : i.Lapsed s.now
    · simp [hx, hy, Option.filter, hl, (Item.lapsed_congr hshown s.now).2 hl]
    · simp [hx, hy, Option.filter, hl, mt (Item.lapsed_congr hshown s.now).1 hl, hshown]

theorem liveUnder? (h : s.Twin t) (hs : s.trie.Arranged) (key : Bytes) :
    (t.liveUnder? key).map Item.shown = (s.liveUnder? key).map Item.shown := by
  rw [Store.liveUnder?, Store.liveUnder?, h.findNode? hs]
  cases s.trie.findNode? key with
  | none => rfl
  | some id => exact h.liveItem? id

theorem barred (h : s.Twin t) (hs : s.trie.Arranged) (key : Bytes) :
    t.Barred key ↔ s.Barred key := by
  rw [barred_iff, barred_iff, h.now]
  rcases Item.shown_cases (h.liveUnder? hs key) with ⟨hx, hy⟩ | ⟨i, j, hx, hy, hshown⟩
  · simp [hx, hy]
  · simp [hx, hy, Item.locked_congr hshown]

/-- The same members are found, at the same nodes. -/
theorem searchNodes (h : s.Twin t) (hs : s.trie.Arranged) (stem : Bytes) :
    t.trie.searchNodes stem = s.trie.searchNodes stem := by
  rw [Trie.searchNodes_eq, Trie.searchNodes_eq, ← Trie.nodesBelow_congr hs h.shape]
  refine List.filter_congr fun m _ => ?_
  rw [← Option.isSome_map (f := Item.shown), h.shown, Option.isSome_map]

/-! ### Carrying a plan out -/

theorem leaves (h : s.Twin t) (hp : p.Matches q) (id : NodeId) :
    (q.leaves t id).map Item.shown = (p.leaves s id).map Item.shown := by
  rw [Plan.leaves, Plan.leaves, h.now]
  rcases Item.shown_cases (h.liveItem? id) with ⟨hx, hy⟩ | ⟨i, j, hx, hy, hshown⟩
  · rw [hx, hy]
    rfl
  · rw [hx, hy]
    exact (hp s.now h.maxItemTtl hshown).2

theorem gives (h : s.Twin t) (hp : p.Matches q) (m : Bytes × NodeId) :
    q.gives t m = p.gives s m := by
  rw [Plan.gives, Plan.gives, h.now]
  rcases Item.shown_cases (h.liveItem? m.2) with ⟨hx, hy⟩ | ⟨i, j, hx, hy, hshown⟩
  · rw [hx, hy]
    rfl
  · rw [hx, hy, Option.bind_some, Option.bind_some, (hp s.now h.maxItemTtl hshown).1]

theorem onNode (h : s.Twin t) (hp : p.Matches q) (id : NodeId) :
    (s.onNode id p.act).2.Twin (t.onNode id q.act).2 := by
  refine h.step (sameGround_onNode p s id) (sameGround_onNode q t id) fun j => ?_
  rw [get?_onNode, get?_onNode]
  split
  · exact h.leaves hp j
  · exact h.shown j

theorem onKey (h : s.Twin t) (hs : s.trie.Arranged) (hp : p.Matches q) (key : Bytes) :
    (s.onKey key p.act).2.Twin (t.onKey key q.act).2 := by
  unfold Store.onKey
  rw [h.findNode? hs]
  cases s.trie.findNode? key with
  | none => exact h
  | some id => exact h.onNode hp id

theorem onKey_fst (h : s.Twin t) (hs : s.trie.Arranged) (hp : p.Matches q) (key : Bytes) :
    (t.onKey key q.act).1 = (s.onKey key p.act).1 := by
  rw [Store.onKey_fst, Store.onKey_fst, h.now]
  rcases Item.shown_cases (h.liveUnder? hs key) with ⟨hx, hy⟩ | ⟨i, j, hx, hy, hshown⟩
  · rw [hx, hy]
  · rw [hx, hy]
    exact (hp s.now h.maxItemTtl hshown).1

theorem onStem (h : s.Twin t) (hs : s.trie.Arranged) (hp : p.Matches q) (stem : Bytes) :
    (s.onStem stem p.act).2.Twin (t.onStem stem q.act).2 := by
  have ht := hs.congr h.shape
  refine h.step (sameGround_onStem p hs stem) (sameGround_onStem q ht stem) fun j => ?_
  rw [get?_onStem p hs, get?_onStem q ht, ← Trie.nodesBelow_congr hs h.shape]
  split
  · exact h.leaves hp j
  · exact h.shown j

theorem onStem_fst (h : s.Twin t) (hs : s.trie.Arranged) (hp : p.Matches q) (stem : Bytes) :
    (t.onStem stem q.act).1 = (s.onStem stem p.act).1 := by
  have hmembers := h.searchNodes hs stem
  by_cases hnil : s.trie.searchNodes stem = []
  · rw [onStem_of_nil hnil, onStem_of_nil (hmembers.trans hnil)]
  · rw [Store.onStem_fst q (hs.congr h.shape) (hmembers ▸ hnil), Store.onStem_fst p hs hnil,
      hmembers]
    exact congrArg Except.ok (List.filterMap_congr fun m _ => h.gives hp m)

/-! ### Bringing an item in -/

theorem liveAt (h : s.Twin t) (id : NodeId) : (s.liveAt id).2.Twin (t.liveAt id).2 := by
  refine h.step (sameGround_liveAt s id) (sameGround_liveAt t id) fun j => ?_
  rw [get?_liveAt, get?_liveAt]
  split
  · exact h.liveItem? j
  · exact h.shown j

theorem liveKey (h : s.Twin t) (hs : s.trie.Arranged) (key : Bytes) :
    (s.liveKey key).2.Twin (t.liveKey key).2 := by
  cases hf : s.trie.findNode? key with
  | none =>
    rw [liveKey_of_none hf, liveKey_of_none ((h.findNode? hs key).trans hf)]
    exact h
  | some id =>
    rw [liveKey_of_some hf, liveKey_of_some ((h.findNode? hs key).trans hf)]
    exact h.liveAt id

theorem bringIn (h : s.Twin t) (hs : s.trie.Arranged) (key : Bytes) (full : Nat) {v w : Value}
    (hvalue : w.shown = v.shown) (ttl : Int) :
    (s.bringIn key full v ttl).Twin (t.bringIn key full w ttl) := by
  -- in both tries the path ends at the same node, old or new
  obtain ⟨-, hend⟩ := Trie.sameShape_reach hs h.shape hs.root_lt key
  have hfresh : (t.fresh w ttl).shown = (s.fresh v ttl).shown := by
    rw [fresh, fresh, h.now, h.maxItemTtl, Item.shown, Item.shown]
    simp only [Item.create, hvalue]
  refine ⟨?_, ?_, ?_, fun j => ?_⟩
  · rw [bringIn_trie, bringIn_trie]
    exact Trie.sameShape_insert hs h.shape key _ _
  · rw [bringIn_now, bringIn_now, h.now]
  · rw [bringIn_limits, bringIn_limits, h.maxItemTtl]
  · rw [bringIn_trie, bringIn_trie, Trie.get?_insert hs, Trie.get?_insert (hs.congr h.shape), hend]
    split
    · exact congrArg some hfresh
    · exact h.shown j

theorem set (h : s.Twin t) (hs : s.trie.Arranged) (hsover : ¬ s.OverBudget)
    (htover : ¬ t.OverBudget) (key : Bytes) {data : Bytes} (hdata : Compression.Restores data)
    (ttl : Int) :
    (t.set key data ttl).1 = (s.set key data ttl).1 ∧
      (s.set key data ttl).2.Twin (t.set key data ttl).2 := by
  by_cases hb : s.Barred key
  · rw [set_of_barred hsover hb, set_of_barred htover ((h.barred hs key).2 hb)]
    exact ⟨rfl, h⟩
  · rw [set_of_free hsover hb, set_of_free htover (mt (h.barred hs key).1 hb), put_eq, put_eq]
    have hsame : ((t.liveKey key).2.encode data).shown = ((s.liveKey key).2.encode data).shown := by
      rw [shown_encode _ hdata, shown_encode _ hdata]
    exact ⟨rfl, (h.liveKey hs key).bringIn (hs.congr (sameGround_liveKey s key).shape) key _
      hsame ttl⟩

/-! ### Sweeps -/

theorem expireSweep (h : s.Twin t) (hs : s.trie.Arranged) :
    s.expireSweep.2.Twin t.expireSweep.2 := by
  refine h.step (sameGround_expireSweep s) (sameGround_expireSweep t) fun id => ?_
  rw [get?_expireSweep hs, get?_expireSweep (hs.congr h.shape)]
  exact h.liveItem? id

/-- Within the budget nothing is evicted. -/
theorem memorySweep (h : s.Twin t) (hsover : ¬ s.OverBudget) (htover : ¬ t.OverBudget) :
    s.memorySweep.2.Twin t.memorySweep.2 := by
  rw [Store.memorySweep, Store.memorySweep, if_neg hsover, if_neg htover]
  exact h

theorem destroyAll (h : s.Twin t) : s.destroyAll.2.Twin t.destroyAll.2 where
  shape := .refl _
  now := h.now
  maxItemTtl := h.maxItemTtl
  shown := fun _ => rfl

theorem setClock (h : s.Twin t) (now : Int) : (s.setClock now).Twin (t.setClock now) where
  shape := h.shape
  now := rfl
  maxItemTtl := h.maxItemTtl
  shown := h.shown

end Twin

end Store

/-! ## Operations -/

/-- The operation neither adds nor asks how a value is kept. -/
def KeyOperation.Discreet : KeyOperation → Prop
  | add _ => False
  | ask a => a ≠ .size ∧ a ≠ .encoding
  | _ => True

/-- The operation does not add. -/
def StemOperation.Discreet : StemOperation → Prop
  | add _ => False
  | _ => True

theorem KeyOperation.matches_reading {op : KeyOperation} (hop : op.Discreet) {r : KeyReading}
    (h : op.reading? = some r) : r.plan.Matches r.plan := by
  cases op <;> cases h
  · exact Plan.matches_read
  · exact Plan.matches_delete
  · exact Plan.matches_live _
  · exact Plan.matches_lock _
  · exact Plan.matches_unlock
  · exact Plan.matches_ask hop.1 hop.2

/-- **An operation on a key does not notice in what form values are kept**:
it answers the same, and leaves twins. -/
theorem KeyOperation.twin_run {s t : Store} (h : s.Twin t) (hs : s.trie.Arranged)
    {op : KeyOperation} (hop : op.Discreet) {key : Bytes}
    (hrestores : (Operation.onKey key op).Restores) (hsover : ¬ s.OverBudget)
    (htover : ¬ t.OverBudget) :
    (op.run key t).1 = (op.run key s).1 ∧ (op.run key s).2.Twin (op.run key t).2 := by
  cases hr : op.reading? with
  | some r =>
    have hplan := matches_reading hop hr
    rw [run_eq hr, run_eq hr]
    exact ⟨congrArg (Except.map r.answer) (h.onKey_fst hs hplan key), h.onKey hs hplan key⟩
  | none =>
    cases op with
    | set data ttl =>
      obtain ⟨hresult, hstore⟩ := h.set hs hsover htover key (hrestores data rfl) ttl
      exact ⟨congrArg (Except.map Answer.value) hresult, hstore⟩
    | add delta => exact hop.elim
    | _ => cases hr

/-- **Nor does an operation on a stem.** -/
theorem StemOperation.twin_run {s t : Store} (h : s.Twin t) (hs : s.trie.Arranged)
    {op : StemOperation} (hop : op.Discreet) {stem : Bytes}
    (hrestores : (Operation.onStem stem op).Restores) (hsover : ¬ s.OverBudget)
    (htover : ¬ t.OverBudget) :
    (op.run stem t).1 = (op.run stem s).1 ∧ (op.run stem s).2.Twin (op.run stem t).2 := by
  have hstem : ∀ {β : Type} {p q : Plan β} (answer : List (Bytes × β) → Answer), p.Matches q →
      ((t.onStem stem q.act).map answer).1 = ((s.onStem stem p.act).map answer).1 ∧
        ((s.onStem stem p.act).map answer).2.Twin ((t.onStem stem q.act).map answer).2 :=
    fun answer hp => ⟨congrArg (Except.map answer) (h.onStem_fst hs hp stem), h.onStem hs hp stem⟩
  rw [run_eq fun _ => hsover, run_eq fun _ => htover]
  cases op with
  | set data =>
    have hsame : (t.encode data).shown = (s.encode data).shown := by
      rw [Store.shown_encode _ (hrestores data rfl), Store.shown_encode _ (hrestores data rfl)]
    exact hstem _ (Plan.matches_replace hsame data.length)
  | get => exact hstem _ Plan.matches_read
  | del => exact hstem _ Plan.matches_delete
  | setTtl ttl => exact hstem _ (Plan.matches_live ttl)
  | add delta => exact hop.elim
  | lock seconds => exact hstem _ (Plan.matches_lock seconds)
  | unlock => exact hstem _ Plan.matches_unlock
  | count => exact hstem _ Plan.matches_keep
  | keys => exact hstem _ Plan.matches_keep

end PrefixCache

import PrefixCache.Proofs.Store.Running
/-!
# Nothing is cut off at zero

The counters are natural numbers, and a subtraction that went below zero
would stop there. Whether one ever does can be seen from outside: raise
the counters of items and memory by any amount, with the budget, and go
on. Where no subtraction stops, everything ends raised by that amount;
where one stops, a large amount takes the place of the missing rest and
the end differs. In a sound store nothing stops, since what is taken out
is covered.
-/

namespace PrefixCache

namespace Counters

variable {c : Counters}

/-- The counters of items and memory, higher by some amount. -/
def raised (b : Nat) (c : Counters) : Counters :=
  { c with
    items := c.items + b
    compressedItems := c.compressedItems + b
    memoryUsed := c.memoryUsed + b
    memoryPeak := c.memoryPeak + b }

theorem created_raised (b : Nat) (c : Counters) (item : Item) (now : Int) :
    (c.raised b).created item now = (c.created item now).raised b := by
  simp only [raised, created, Nat.add_right_comm _ b, Nat.add_max_add_right]
  rfl

theorem compressed_raised (b : Nat) (c : Counters) (full packed : Nat) :
    (c.raised b).compressed full packed = (c.compressed full packed).raised b := by
  unfold compressed
  split <;> rfl

/-- What is covered can be taken out of raised counters just as well. -/
theorem released_raised (b : Nat) {old : Option Item}
    (h : ∀ item, old = some item → 1 ≤ c.items ∧
      compressedWeight item.value ≤ c.compressedItems ∧ item.footprint ≤ c.memoryUsed) :
    (c.raised b).released old = (c.released old).raised b := by
  cases old with
  | none => rfl
  | some item =>
    obtain ⟨hi, hz, hm⟩ := h item rfl
    simp only [released, destroyed, raised, Nat.sub_add_comm hi, Nat.sub_add_comm hz,
      Nat.sub_add_comm hm]

theorem resized_raised (b : Nat) {old new : Nat} (h : old ≤ c.memoryUsed) :
    (c.raised b).resized old new = (c.resized old new).raised b := by
  have hsub : c.memoryUsed + b + new - old = c.memoryUsed + new - old + b := by omega
  simp only [resized, raised, hsub, Nat.add_max_add_right]

end Counters

/-- The plan does not look at the budget. -/
def Plan.Unbudgeted {β : Type} (p : Plan β) : Prop :=
  ∀ (limits : StoreLimits) (maxMemory : Nat) (now : Int) (item : Item),
    p { limits with maxMemory } now item = p limits now item

theorem KeyOperation.unbudgeted {op : KeyOperation} {r : KeyReading} (h : op.reading? = some r) :
    r.plan.Unbudgeted := by
  cases op <;> cases h <;> exact fun _ _ _ _ => rfl

theorem StemOperation.unbudgeted (op : StemOperation) (s : Store) :
    (op.reading s).plan.Unbudgeted := by
  cases op <;> exact fun _ _ _ _ => rfl

namespace Store

variable {s : Store} {id : NodeId} {item : Item} {β : Type} {p : Plan β} {weight : Nat}

/-- The store with raised counters, and with a budget raised alike. -/
def raised (b : Nat) (s : Store) : Store :=
  { s with
    counters := s.counters.raised b
    limits := { s.limits with maxMemory := s.limits.maxMemory + b } }

theorem overBudget_raised (b : Nat) (s : Store) : (s.raised b).OverBudget ↔ s.OverBudget :=
  Nat.add_lt_add_iff_right

theorem destroyAt_raised (h : s.Sound) (b : Nat) (id : NodeId) :
    (s.raised b).destroyAt id = (s.destroyAt id).raised b := by
  have hcounters : (s.counters.raised b).released (s.trie.get? id) =
      (s.counters.released (s.trie.get? id)).raised b :=
    Counters.released_raised b fun item hget => h.covers hget
  simp only [destroyAt, Trie.take, Trie.swap_fst, raised] at hcounters ⊢
  cases hget : s.trie.get? id with
  | none => rfl
  | some item =>
    rw [hget] at hcounters
    simp only [discard, Counters.released] at hcounters ⊢
    rw [hcounters]

theorem liveAt_raised (h : s.Sound) (b : Nat) (id : NodeId) :
    ((s.raised b).liveAt id).2 = (s.liveAt id).2.raised b := by
  have hdestroy := destroyAt_raised h b id
  unfold liveAt
  simp only [raised] at hdestroy ⊢
  cases s.trie.get? id with
  | none => rfl
  | some item =>
    by_cases hl : item.Lapsed s.now
    · simpa only [hl, if_true] using hdestroy
    · simp only [hl, if_false]

theorem reviseAt_raised (h : s.Sound) (hget : s.trie.get? id = some item) (b : Nat) (new : Item) :
    (s.raised b).reviseAt id item new = (s.reviseAt id item new).raised b := by
  have hsize : item.size ≤ s.counters.memoryUsed :=
    Nat.le_trans (Nat.le_add_right _ _) (h.covers hget).2.2
  simp only [reviseAt, raised, Counters.resized_raised b hsize]

theorem countCompression_raised (b : Nat) (s : Store) (full : Nat) (v : Value) :
    ((s.raised b).countCompression full v).counters =
      (s.countCompression full v).counters.raised b := by
  cases v with
  | compressed packed => exact Counters.compressed_raised b _ _ _
  | _ => rfl

/-- A new item is covered once it is booked in, and so is the old one. -/
theorem released_created_raised (h : s.Sound) (b : Nat) {c : Counters}
    (hc : s.counters.SameBooks c) (new : Item) (now : Int) (id : NodeId) :
    ((c.raised b).created new now).released (s.trie.get? id) =
      ((c.created new now).released (s.trie.get? id)).raised b := by
  rw [Counters.created_raised, Counters.released_raised]
  intro item hget
  obtain ⟨hi, hz, hm⟩ := h.covers hget
  simp only [Counters.created, hc.items, hc.compressedItems, hc.memoryUsed]
  omega

/-- A new item in the place of the one at a node. -/
theorem renew_raised (h : s.Sound) (b : Nat) (id : NodeId) (full : Nat) (v : Value) :
    (Change.renew full v).apply id item (s.raised b) =
      ((Change.renew full v).apply id item s).raised b := by
  have hbooks := released_created_raised h b (sameBooks_countCompression s full v)
    (s.fresh v (-1)) s.now id
  rw [← countCompression_raised] at hbooks
  rw [renew_eq, renew_eq]
  exact congrArg (fun c => ({ s with
    trie := (s.trie.swap id (some (s.fresh v (-1)))).2
    counters := c
    limits := (s.raised b).limits } : Store)) hbooks

theorem apply_raised (h : s.Sound) (hget : s.trie.get? id = some item) (b : Nat) (c : Change) :
    c.apply id item (s.raised b) = (c.apply id item s).raised b := by
  cases c with
  | keep => rfl
  | revise new => exact reviseAt_raised h hget b new
  | remove => exact destroyAt_raised h b id
  | renew full v => exact renew_raised h b id full v

theorem bringIn_raised (h : s.Sound) (b : Nat) (key : Bytes) (full : Nat) (v : Value) (ttl : Int) :
    (s.raised b).bringIn key full v ttl = (s.bringIn key full v ttl).raised b := by
  obtain ⟨u, id, -, -, heq⟩ := Trie.exists_insert h.arranged key (s.fresh v ttl)
  have hbooks := released_created_raised h b (sameBooks_countCompression s full v)
    (s.fresh v ttl) s.now id
  rw [← countCompression_raised] at hbooks
  rw [bringIn_eq, bringIn_eq, heq, show (s.raised b).trie.insert key ((s.raised b).fresh v ttl) =
    (s.trie.get? id, (u.swap id (some (s.fresh v ttl))).2) from heq]
  exact congrArg (fun c => ({ s with
    trie := (u.swap id (some (s.fresh v ttl))).2
    counters := c
    limits := (s.raised b).limits } : Store)) hbooks

/-! ## At nodes and members -/

theorem liveItem?_raised (b : Nat) (s : Store) (id : NodeId) :
    (s.raised b).liveItem? id = s.liveItem? id := rfl

theorem onNode_raised (h : s.Sound) (hp : p.Unbudgeted) (b : Nat) (id : NodeId) :
    ((s.raised b).onNode id p.act).2 = (s.onNode id p.act).2.raised b := by
  cases hl : s.liveItem? id with
  | none =>
    rw [onNode_of_none hl, onNode_of_none ((liveItem?_raised b s id).trans hl)]
    exact liveAt_raised h b id
  | some item =>
    rw [onNode_of_some hl, onNode_of_some ((liveItem?_raised b s id).trans hl)]
    simp only [Plan.act]
    rw [show p (s.raised b).limits (s.raised b).now item = p s.limits s.now item from hp _ _ _ _]
    exact apply_raised h (liveItem?_eq_some.1 hl).1 b _

theorem onKey_raised (h : s.Sound) (hp : p.Unbudgeted) (b : Nat) (key : Bytes) :
    ((s.raised b).onKey key p.act).2 = (s.onKey key p.act).2.raised b := by
  unfold onKey
  rw [show (s.raised b).trie.findNode? key = s.trie.findNode? key from rfl]
  cases s.trie.findNode? key with
  | none => rfl
  | some id => exact onNode_raised h hp b id

theorem foldl_onMember_raised (hw : p.Bookable weight) (hp : p.Unbudgeted) (b : Nat)
    (ms : List (Bytes × NodeId)) (given given' : List (Bytes × β)) (h : s.Sound) :
    (ms.foldl (onMember p.act) (given, s.raised b)).2 =
      (ms.foldl (onMember p.act) (given', s)).2.raised b := by
  induction ms generalizing given given' s with
  | nil => rfl
  | cons m ms ih =>
    rw [List.foldl_cons, List.foldl_cons, onMember_eq, onMember_eq, onNode_raised h hp]
    exact ih _ _ (upholds_onNode h hw m).sound

theorem onStem_raised (h : s.Sound) (hw : p.Bookable weight) (hp : p.Unbudgeted) (b : Nat)
    (stem : Bytes) : ((s.raised b).onStem stem p.act).2 = (s.onStem stem p.act).2.raised b := by
  have hsearch : (s.raised b).trie.searchNodes stem = s.trie.searchNodes stem := rfl
  by_cases hnil : s.trie.searchNodes stem = []
  · rw [onStem_of_nil hnil, onStem_of_nil (hsearch.trans hnil)]
  · rw [onStem_of_ne_nil hnil, onStem_of_ne_nil (hsearch ▸ hnil)]
    exact foldl_onMember_raised hw hp b _ [] [] h

/-! ## Bringing items in -/

theorem liveKey_raised (h : s.Sound) (b : Nat) (key : Bytes) :
    ((s.raised b).liveKey key).2 = (s.liveKey key).2.raised b := by
  cases hf : s.trie.findNode? key with
  | none => rw [liveKey_of_none hf, liveKey_of_none (s := s.raised b) hf]
  | some id =>
    rw [liveKey_of_some hf, liveKey_of_some (s := s.raised b) hf]
    exact liveAt_raised h b id

theorem set_raised (h : s.Sound) (b : Nat) (key data : Bytes) (ttl : Int) :
    ((s.raised b).set key data ttl).2 = (s.set key data ttl).2.raised b := by
  by_cases hover : s.OverBudget
  · rw [set_of_overBudget hover, set_of_overBudget ((overBudget_raised b s).2 hover)]
  have hover' := mt (overBudget_raised b s).1 hover
  by_cases hb : s.Barred key
  · rw [set_of_barred hover hb, set_of_barred hover' hb]
  · rw [set_of_free hover hb, set_of_free (s := s.raised b) hover' hb, liveKey_raised h]
    exact bringIn_raised (upholds_liveKey h key).sound b key _ _ ttl

theorem add_raised (h : s.Sound) (b : Nat) (key : Bytes) (delta : Int64) :
    ((s.raised b).add key delta).2 = (s.add key delta).2.raised b := by
  cases hl : s.liveUnder? key with
  | some item =>
    rw [add_of_some hl, add_of_some (s := s.raised b) hl]
    exact onKey_raised h (fun _ _ _ _ => rfl) b key
  | none =>
    rw [add_of_none hl, add_of_none (s := s.raised b) hl, liveKey_raised h]
    exact bringIn_raised (upholds_liveKey h key).sound b key _ _ _

/-! ## Sweeps -/

theorem cull_raised (h : s.Sound) {doomed doomed' : Counters → Item → Bool} {b : Nat}
    (hd : ∀ c item, doomed' (c.raised b) item = doomed c item) (id : NodeId) :
    (s.raised b).cull doomed' id = (s.cull doomed id).raised b := by
  unfold cull
  rw [show (s.raised b).trie.get? id = s.trie.get? id from rfl]
  cases s.trie.get? id with
  | none => rfl
  | some item =>
    simp only [show (s.raised b).counters = s.counters.raised b from rfl, hd]
    split
    · exact destroyAt_raised h b id
    · rfl

theorem foldl_cull_raised (h : s.Sound) {doomed doomed' : Counters → Item → Bool} {b : Nat}
    (hd : ∀ c item, doomed' (c.raised b) item = doomed c item) (ids : List NodeId) :
    ids.foldl (cull doomed') (s.raised b) = (ids.foldl (cull doomed) s).raised b := by
  induction ids generalizing s with
  | nil => rfl
  | cons id ids ih =>
    rw [List.foldl_cons, List.foldl_cons, cull_raised h hd]
    exact ih (upholds_cull doomed h id).sound

theorem expireSweep_raised (h : s.Sound) (b : Nat) :
    (s.raised b).expireSweep.2 = s.expireSweep.2.raised b := by
  rw [expireSweep, expireSweep, sweep_snd (culls_expireVisitor _),
    sweep_snd (culls_expireVisitor _)]
  exact foldl_cull_raised h (fun _ _ => rfl) _

theorem memorySweep_raised (h : s.Sound) (b : Nat) :
    (s.raised b).memorySweep.2 = s.memorySweep.2.raised b := by
  unfold memorySweep
  by_cases hover : s.OverBudget
  · rw [if_pos hover, if_pos ((overBudget_raised b s).2 hover), sweep_snd (culls_evictVisitor _ _),
      sweep_snd (culls_evictVisitor _ _)]
    refine foldl_cull_raised h (fun c item => ?_) _
    -- budget and memory are raised alike, so the sweep stops at the same item
    simp only [raised, Counters.raised, Nat.add_le_add_iff_right]
    rfl
  · rw [if_neg hover, if_neg (mt (overBudget_raised b s).1 hover)]

theorem destroyAll_raised (h : s.Sound) (b : Nat) :
    (s.raised b).destroyAll.2 = s.destroyAll.2.raised b := by
  have hdrained : (s.raised b).drained = s.drained.raised b :=
    foldl_cull_raised h (fun _ _ => rfl) _
  rw [destroyAll_snd, destroyAll_snd, hdrained]
  rfl

end Store

/-! ## Operations -/

theorem KeyOperation.run_raised {s : Store} (h : s.Sound) (op : KeyOperation) (key : Bytes)
    (b : Nat) : (op.run key (s.raised b)).2 = (op.run key s).2.raised b := by
  cases hr : op.reading? with
  | some r =>
    rw [run_eq hr, run_eq hr]
    exact Store.onKey_raised h (unbudgeted hr) b key
  | none =>
    cases op <;> cases hr
    · exact Store.set_raised h b key _ _
    · exact Store.add_raised h b key _

theorem StemOperation.run_raised {s : Store} (h : s.Sound) (op : StemOperation) (stem : Bytes)
    (b : Nat) : (op.run stem (s.raised b)).2 = (op.run stem s).2.raised b := by
  have hreading : op.reading (s.raised b) = op.reading s := by cases op <;> rfl
  by_cases hover : op.Stores ∧ s.OverBudget
  · rw [run_of_overBudget hover.1 hover.2,
      run_of_overBudget hover.1 ((Store.overBudget_raised b s).2 hover.2)]
  · have hfits : op.Stores → ¬ s.OverBudget := fun hs ho => hover ⟨hs, ho⟩
    rw [run_eq hfits, run_eq fun hs => mt (Store.overBudget_raised b s).1 (hfits hs), hreading]
    exact Store.onStem_raised h (op.bookable s) (op.unbudgeted s) b stem

/-- **No subtraction stops at zero**: a sound store with raised counters
goes on as it would have gone on without, only raised. -/
theorem Operation.run_raised {s : Store} (h : s.Sound) (op : Operation) (b : Nat) :
    (op.run (s.raised b)).2 = (op.run s).2.raised b := by
  cases op with
  | onKey key op => exact KeyOperation.run_raised h op key b
  | onStem stem op => exact StemOperation.run_raised h op stem b
  | check id => exact Store.liveAt_raised h b id
  | expireSweep => exact Store.expireSweep_raised h b
  | memorySweep => exact Store.memorySweep_raised h b
  | destroyAll => exact Store.destroyAll_raised h b
  | setClock now => rfl
  | note figures => rfl

end PrefixCache

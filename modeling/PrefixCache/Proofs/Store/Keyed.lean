import PrefixCache.Proofs.Store.Running
/-!
# Operations, key by key

What an operation leaves under a key can be told from what is live under
that key before (`Plan.leavesUnder`), and so can what it gives
(`onKey_fst`). Under all other keys it leaves what was there, an operation
on a stem under all keys without the stem. An operation on a key does one
of three things (`KeyOperation.run_cases`): it is refused, it carries a
plan out at the key, or it brings a new item in.
-/

namespace PrefixCache

/-- What a plan leaves under a key. -/
def Plan.leavesUnder {β : Type} (p : Plan β) (s : Store) (key : Bytes) : Option Item :=
  (s.liveUnder? key).bind fun item => (p s.limits s.now item).2.slot s.limits s.now item

theorem Plan.leavesUnder_eq {β : Type} (p : Plan β) (s : Store) (key : Bytes) :
    p.leavesUnder s key = (s.trie.findNode? key).bind (p.leaves s) := by
  rw [leavesUnder, Store.liveUnder?, Option.bind_assoc]
  rfl

theorem Plan.leavesUnder_of_live {β : Type} (p : Plan β) {s : Store} {key : Bytes} {item : Item}
    (h : s.liveUnder? key = some item) :
    p.leavesUnder s key = (p s.limits s.now item).2.slot s.limits s.now item := by
  rw [leavesUnder, h, Option.bind_some]

namespace Store

variable {β : Type} {s : Store} {p : Plan β} {item : Item}

/-- Looking at a node takes a lapsed item from under its key. -/
theorem find?_liveAt (hs : s.trie.Arranged) (id : NodeId) (key : Bytes) :
    (s.liveAt id).2.trie.find? key =
      if s.trie.findNode? key = some id then s.liveUnder? key else s.trie.find? key := by
  rw [(sameGround_liveAt s id).find?_eq hs, liveUnder?, Trie.find?]
  cases s.trie.findNode? key with
  | none => rfl
  | some j =>
    simp only [Option.bind_some, Option.some.injEq, get?_liveAt, eq_comm (a := j)]

/-- Looking at a key takes a lapsed item from under it. -/
theorem find?_liveKey (hs : s.trie.Arranged) (seen key : Bytes) :
    (s.liveKey seen).2.trie.find? key =
      if seen = key then s.liveUnder? key else s.trie.find? key := by
  cases hf : s.trie.findNode? seen with
  | none =>
    rw [liveKey_of_none hf]
    split
    · next h => rw [← h, liveUnder?, Trie.find?, hf, Option.bind_none, Option.bind_none]
    · rfl
  | some id =>
    rw [liveKey_of_some hf, find?_liveAt hs]
    by_cases h : seen = key
    · rw [if_pos h, if_pos (h ▸ hf)]
    · rw [if_neg h, if_neg fun hk => h (hs.findNode?_inj hf hk)]

/-- **An operation on a key changes nothing under other keys.** -/
theorem find?_onKey (hs : s.trie.Arranged) (p : Plan β) (target key : Bytes) :
    (s.onKey target p.act).2.trie.find? key =
      if target = key then p.leavesUnder s key else s.trie.find? key := by
  unfold onKey
  cases hf : s.trie.findNode? target with
  | none =>
    simp only
    split
    · next h => rw [p.leavesUnder_eq, Trie.find?, ← h, hf, Option.bind_none, Option.bind_none]
    · rfl
  | some id =>
    simp only
    rw [(sameGround_onNode p s id).find?_eq hs, p.leavesUnder_eq, Trie.find?]
    cases hk : s.trie.findNode? key with
    | none => simp
    | some j =>
      simp only [Option.bind_some, get?_onNode]
      by_cases h : target = key
      · have hj : id = j := Option.some.inj (hf.symm.trans (h ▸ hk))
        rw [if_pos h, if_pos hj]
      · rw [if_neg h, if_neg]
        rintro rfl
        exact h (hs.findNode?_inj hf hk)

/-- **What an operation on a key gives is told from the live item** under
it. -/
theorem onKey_fst (s : Store) (p : Plan β) (key : Bytes) :
    (s.onKey key p.act).1 =
      match s.liveUnder? key with
      | some item => (p s.limits s.now item).1
      | none => .error .notFound := by
  unfold onKey liveUnder?
  cases s.trie.findNode? key with
  | none => rfl
  | some id =>
    simp only [Option.bind_some]
    cases hl : s.liveItem? id with
    | none => rw [onNode_of_none hl]
    | some item => rw [onNode_of_some hl, Plan.act]

/-- On a live key an action is run on the item. -/
theorem onKey_of_live {key : Bytes} {id : NodeId} (hf : s.trie.findNode? key = some id)
    (hitem : s.liveItem? id = some item) (act : Action β) : s.onKey key act = act id item s := by
  rw [onKey, hf]
  exact onNode_of_some hitem act

theorem sameGround_onKey (s : Store) (p : Plan β) (key : Bytes) :
    s.SameGround (s.onKey key p.act).2 := by
  unfold onKey
  cases s.trie.findNode? key with
  | none => exact .refl s
  | some id => exact sameGround_onNode p s id

/-- **An operation on a stem changes nothing under keys without it.** -/
theorem find?_onStem (hs : s.trie.Arranged) (p : Plan β) (stem key : Bytes) :
    (s.onStem stem p.act).2.trie.find? key =
      if stem <+: key then p.leavesUnder s key else s.trie.find? key := by
  rw [(sameGround_onStem p hs stem).find?_eq hs, p.leavesUnder_eq, Trie.find?]
  cases hk : s.trie.findNode? key with
  | none => simp
  | some j =>
    -- a node below the stem is the node of a key with the stem, and of no other
    have hmem : j ∈ (s.trie.nodesBelow stem).map Prod.snd ↔ stem <+: key := by
      rw [List.mem_map]
      constructor
      · rintro ⟨⟨key', j'⟩, hm, rfl⟩
        obtain ⟨hstem, hf⟩ := (Trie.mem_nodesBelow hs).1 hm
        exact hs.findNode?_inj hf hk ▸ hstem
      · exact fun hstem => ⟨(key, j), (Trie.mem_nodesBelow hs).2 ⟨hstem, hk⟩, rfl⟩
    simp only [Option.bind_some, get?_onStem p hs, hmem]

/-- What comes in is seen under its key only. -/
theorem find?_set (hs : s.trie.Arranged) {target : Bytes} (h : ¬ s.OverBudget)
    (hb : ¬ s.Barred target) (data : Bytes) (ttl : Int) (key : Bytes) :
    (s.set target data ttl).2.trie.find? key =
      if target = key then some (s.fresh (s.encode data) ttl) else s.trie.find? key := by
  have hground := sameGround_liveKey s target
  rw [set_of_free h hb, put_eq, find?_bringIn (hs.congr hground.shape), find?_liveKey hs,
    hground.encode_eq, hground.fresh_eq]
  by_cases hk : target = key <;> simp [hk]

/-- Adding leaves a sum under its key, and changes nothing under others. -/
theorem find?_add (hs : s.trie.Arranged) (target : Bytes) (delta : Int64) (key : Bytes) :
    (s.add target delta).2.trie.find? key =
      if target = key then
        if s.liveUnder? key = none then some (s.fresh (.number delta) (-1))
        else (Plan.add delta).leavesUnder s key
      else s.trie.find? key := by
  cases hl : s.liveUnder? target with
  | some item =>
    rw [add_of_some hl, find?_onKey hs]
    by_cases hk : target = key
    · simp [hk, hk ▸ hl]
    · simp [hk]
  | none =>
    have hground := sameGround_liveKey s target
    rw [add_of_none hl]
    simp only
    rw [find?_bringIn (hs.congr hground.shape), find?_liveKey hs, hground.fresh_eq]
    by_cases hk : target = key
    · simp [hk, hk ▸ hl]
    · simp [hk]

/-- **Sweeping out what has lapsed leaves what is live.** -/
theorem find?_expireSweep (hs : s.trie.Arranged) (key : Bytes) :
    s.expireSweep.2.trie.find? key = s.liveUnder? key := by
  rw [(sameGround_expireSweep s).find?_eq hs, liveUnder?]
  congr 1
  exact funext (get?_expireSweep hs)

/-- What is under a key after a sweep was there before. -/
theorem find?_of_foldl_cull (hs : s.trie.Arranged) {doomed : Counters → Item → Bool}
    {ids : List NodeId} {key : Bytes}
    (h : (ids.foldl (cull doomed) s).trie.find? key = some item) :
    s.trie.find? key = some item := by
  rw [(sameGround_foldl_cull doomed ids s).find?_eq hs] at h
  obtain ⟨id, hid, hget⟩ := Option.bind_eq_some_iff.1 h
  exact Trie.find?_eq_some.2 ⟨id, hid, get?_of_foldl_cull doomed hget⟩

theorem find?_of_memorySweep (hs : s.trie.Arranged) {key : Bytes}
    (h : s.memorySweep.2.trie.find? key = some item) : s.trie.find? key = some item := by
  unfold memorySweep at h
  split at h
  · rw [sweep_snd (culls_evictVisitor s.limits s.now)] at h
    exact find?_of_foldl_cull hs h
  · exact h

end Store

/-! ## Operations -/

/-- The plan of an operation on a key for a live item. Storing has none,
since it does not look at what it replaces. -/
def KeyOperation.onLive? : KeyOperation → Option KeyReading
  | add delta => some ⟨.add delta, .sum⟩
  | op => op.reading?

/-- **What an operation on a key can do**: it is refused and does nothing, it
carries a plan out at the key, or it brings a new item in. -/
theorem KeyOperation.run_cases (op : KeyOperation) (key : Bytes) (s : Store) :
    (∃ e, op.run key s = (.error e, s)) ∨
      (∃ r, op.onLive? = some r ∧ op.run key s = (s.onKey key r.plan.act).map r.answer) ∨
      (∃ answer full value ttl,
        op.run key s = (.ok answer, (s.liveKey key).2.bringIn key full value ttl)) := by
  cases op with
  | set data ttl =>
    by_cases hover : s.OverBudget
    · exact .inl ⟨_, congrArg (Outcome.map Answer.value) (Store.set_of_overBudget hover key data ttl)⟩
    by_cases hb : s.Barred key
    · exact .inl ⟨_, congrArg (Outcome.map Answer.value) (Store.set_of_barred hover hb data ttl)⟩
    · exact .inr (.inr ⟨_, _, _, _,
        congrArg (Outcome.map Answer.value) (Store.set_of_free hover hb data ttl)⟩)
  | add delta =>
    cases hlive : s.liveUnder? key with
    | some item =>
      exact .inr (.inl ⟨_, rfl, congrArg (Outcome.map Answer.sum) (Store.add_of_some hlive delta)⟩)
    | none =>
      exact .inr (.inr ⟨_, _, _, _,
        congrArg (Outcome.map Answer.sum) (Store.add_of_none hlive delta)⟩)
  | _ => exact .inr (.inl ⟨_, rfl, run_eq rfl key s⟩)

/-- An operation on a key changes nothing under other keys. -/
theorem KeyOperation.find?_run_of_ne {s : Store} (hs : s.trie.Arranged) (op : KeyOperation)
    {target key : Bytes} (hne : target ≠ key) :
    (op.run target s).2.trie.find? key = s.trie.find? key := by
  rcases op.run_cases target s with ⟨e, h⟩ | ⟨r, -, h⟩ | ⟨answer, full, value, ttl, h⟩
  · rw [h]
  · rw [h]
    exact (Store.find?_onKey hs r.plan target key).trans (if_neg hne)
  · rw [h, Store.find?_bringIn (hs.congr (Store.sameGround_liveKey s target).shape), if_neg hne,
      Store.find?_liveKey hs, if_neg hne]

/-- An operation on a stem changes nothing under keys without the stem. -/
theorem StemOperation.find?_run_of_outside {s : Store} (hs : s.trie.Arranged)
    (op : StemOperation) {stem key : Bytes} (hne : ¬ stem <+: key) :
    (op.run stem s).2.trie.find? key = s.trie.find? key := by
  by_cases hover : op.Stores ∧ s.OverBudget
  · rw [run_of_overBudget hover.1 hover.2]
  · rw [run_eq fun hstores ho => hover ⟨hstores, ho⟩]
    simp only [Outcome.map, Store.find?_onStem hs, if_neg hne]

/-- An operation on a key changes neither limits nor clock. -/
theorem KeyOperation.terms_run (op : KeyOperation) (key : Bytes) (s : Store) :
    (op.run key s).2.limits = s.limits ∧ (op.run key s).2.now = s.now := by
  rcases op.run_cases key s with ⟨e, h⟩ | ⟨r, -, h⟩ | ⟨answer, full, value, ttl, h⟩
  · rw [h]
    exact ⟨rfl, rfl⟩
  · rw [h]
    have hground := Store.sameGround_onKey s r.plan key
    exact ⟨hground.limits, hground.now⟩
  · have hground := Store.sameGround_liveKey s key
    rw [h, Store.bringIn_limits, Store.bringIn_now]
    exact ⟨hground.limits, hground.now⟩

theorem KeyOperation.now_run (op : KeyOperation) (key : Bytes) (s : Store) :
    (op.run key s).2.now = s.now :=
  (terms_run op key s).2

/-- Nor does an operation on a stem. -/
theorem StemOperation.terms_run {s : Store} (hs : s.trie.Arranged) (op : StemOperation)
    (stem : Bytes) : (op.run stem s).2.limits = s.limits ∧ (op.run stem s).2.now = s.now := by
  by_cases hover : op.Stores ∧ s.OverBudget
  · rw [run_of_overBudget hover.1 hover.2]
    exact ⟨rfl, rfl⟩
  · rw [run_eq fun hstores ho => hover ⟨hstores, ho⟩]
    have hground := Store.sameGround_onStem (op.reading s).plan hs stem
    exact ⟨hground.limits, hground.now⟩

theorem StemOperation.now_run {s : Store} (hs : s.trie.Arranged) (op : StemOperation)
    (stem : Bytes) : (op.run stem s).2.now = s.now :=
  (terms_run hs op stem).2

namespace Operation

variable {s : Store}

/-- The clock after an operation. -/
def clock (s : Store) : Operation → Int
  | setClock now => now
  | _ => s.now

/-- **No operation changes the limits**, and only setting the clock changes
the clock. -/
theorem terms_run (hs : s.trie.Arranged) (op : Operation) :
    (op.run s).2.limits = s.limits ∧ (op.run s).2.now = op.clock s := by
  cases op with
  | onKey target op => exact KeyOperation.terms_run op target s
  | onStem stem op => exact StemOperation.terms_run hs op stem
  | check id =>
    have hground := Store.sameGround_liveAt s id
    exact ⟨hground.limits, hground.now⟩
  | expireSweep =>
    have hground := Store.sameGround_expireSweep s
    exact ⟨hground.limits, hground.now⟩
  | memorySweep =>
    have hground := Store.sameGround_memorySweep s
    exact ⟨hground.limits, hground.now⟩
  | destroyAll =>
    have hground : s.SameGround s.drained := Store.sameGround_foldl_cull _ _ s
    rw [run, Store.destroyAll_snd]
    exact ⟨hground.limits, hground.now⟩
  | setClock now => exact ⟨rfl, rfl⟩
  | note figures => exact ⟨rfl, rfl⟩

theorem limits_run (hs : s.trie.Arranged) (op : Operation) : (op.run s).2.limits = s.limits :=
  (terms_run hs op).1

theorem now_run (hs : s.trie.Arranged) (op : Operation) : (op.run s).2.now = op.clock s :=
  (terms_run hs op).2

end Operation

end PrefixCache

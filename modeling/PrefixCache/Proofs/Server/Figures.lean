import PrefixCache.Proofs.Request.Serving
import PrefixCache.Proofs.Server.History
/-!
# What a server notes of itself

The counters of a store hold the books of its items and the figures of its
server: how many clients there are, how many connections and requests there
have been, and the like. Operations on items keep the books and leave the
figures alone (`Operation.figures_run`). So only registering a client and
taking it out of the table change the count of clients
(`Store.counted_answer`, `Store.counted_keep`).
-/

namespace PrefixCache

/-! ## Operations leave the figures alone -/

namespace Counters

@[simp] theorem figures_created (c : Counters) (item : Item) (now : Int) :
    (c.created item now).figures = c.figures := rfl

@[simp] theorem figures_released (c : Counters) (old : Option Item) :
    (c.released old).figures = c.figures := by
  cases old <;> rfl

end Counters

namespace Store

variable {β : Type} {s : Store}

@[simp] theorem figures_countCompression (s : Store) (full : Nat) (v : Value) :
    (s.countCompression full v).counters.figures = s.counters.figures := by
  cases v with
  | compressed packed =>
    simp only [countCompression, Counters.compressed]
    split <;> rfl
  | _ => rfl

theorem figures_destroyAt (s : Store) (id : NodeId) :
    (s.destroyAt id).counters.figures = s.counters.figures := by
  rw [destroyAt_counters, Counters.figures_released]

theorem figures_liveAt (s : Store) (id : NodeId) :
    (s.liveAt id).2.counters.figures = s.counters.figures := by
  unfold liveAt
  cases s.trie.get? id with
  | none => rfl
  | some item =>
    by_cases hl : item.Lapsed s.now
    · simp only [hl, if_true, figures_destroyAt]
    · simp only [hl, if_false]

theorem figures_liveKey (s : Store) (key : Bytes) :
    (s.liveKey key).2.counters.figures = s.counters.figures := by
  cases hf : s.trie.findNode? key with
  | none => rw [liveKey_of_none hf]
  | some id =>
    rw [liveKey_of_some hf]
    exact figures_liveAt s id

theorem figures_bringIn (s : Store) (key : Bytes) (full : Nat) (value : Value) (ttl : Int) :
    (s.bringIn key full value ttl).counters.figures = s.counters.figures := by
  simp only [bringIn_eq, Counters.figures_released, Counters.figures_created,
    figures_countCompression]

theorem figures_apply (c : Change) (id : NodeId) (item : Item) (s : Store) :
    (c.apply id item s).counters.figures = s.counters.figures := by
  cases c with
  | keep => rfl
  | revise new => rfl
  | remove => exact figures_destroyAt s id
  | renew full value =>
    simp only [renew_eq, Counters.figures_released, Counters.figures_created,
      figures_countCompression]

variable (p : Plan β)

theorem figures_onNode (s : Store) (id : NodeId) :
    (s.onNode id p.act).2.counters.figures = s.counters.figures := by
  cases hl : s.liveItem? id with
  | none =>
    rw [onNode_of_none hl]
    exact figures_liveAt s id
  | some item =>
    rw [onNode_of_some hl]
    exact figures_apply _ id item s

theorem figures_onKey (s : Store) (key : Bytes) :
    (s.onKey key p.act).2.counters.figures = s.counters.figures := by
  unfold onKey
  cases s.trie.findNode? key with
  | none => rfl
  | some id => exact figures_onNode p s id

theorem figures_foldl_onMember (ms : List (Bytes × NodeId)) (given : List (Bytes × β))
    (s : Store) :
    (ms.foldl (onMember p.act) (given, s)).2.counters.figures = s.counters.figures := by
  induction ms generalizing given s with
  | nil => rfl
  | cons m ms ih =>
    rw [List.foldl_cons, onMember_eq, ih]
    exact figures_onNode p s m.2

theorem figures_onStem (s : Store) (stem : Bytes) :
    (s.onStem stem p.act).2.counters.figures = s.counters.figures := by
  by_cases hnil : s.trie.searchNodes stem = []
  · rw [onStem_of_nil hnil]
  · rw [onStem_of_ne_nil hnil]
    exact figures_foldl_onMember p _ [] s

theorem figures_set (s : Store) (key data : Bytes) (ttl : Int) :
    (s.set key data ttl).2.counters.figures = s.counters.figures := by
  by_cases hover : s.OverBudget
  · rw [set_of_overBudget hover]
  by_cases hb : s.Barred key
  · rw [set_of_barred hover hb]
  · rw [set_of_free hover hb, put_eq]
    exact (figures_bringIn _ _ _ _ _).trans (figures_liveKey s key)

theorem figures_add (s : Store) (key : Bytes) (delta : Int64) :
    (s.add key delta).2.counters.figures = s.counters.figures := by
  cases hl : s.liveUnder? key with
  | some item =>
    rw [add_of_some hl]
    exact figures_onKey _ s key
  | none =>
    rw [add_of_none hl]
    exact (figures_bringIn _ _ _ _ _).trans (figures_liveKey s key)

theorem figures_foldl_cull (doomed : Counters → Item → Bool) (ids : List NodeId) (s : Store) :
    (ids.foldl (cull doomed) s).counters.figures = s.counters.figures := by
  induction ids generalizing s with
  | nil => rfl
  | cons id ids ih =>
    rw [List.foldl_cons, ih]
    unfold cull
    split
    · split
      · exact figures_destroyAt s id
      · rfl
    · rfl

theorem figures_expireSweep (s : Store) :
    s.expireSweep.2.counters.figures = s.counters.figures := by
  rw [expireSweep, sweep_snd (culls_expireVisitor s.now)]
  exact figures_foldl_cull _ _ s

theorem figures_memorySweep (s : Store) :
    s.memorySweep.2.counters.figures = s.counters.figures := by
  unfold memorySweep
  split
  · rw [sweep_snd (culls_evictVisitor s.limits s.now)]
    exact figures_foldl_cull _ _ s
  · rfl

theorem figures_destroyAll (s : Store) :
    s.destroyAll.2.counters.figures = s.counters.figures := by
  rw [destroyAll_snd]
  exact figures_foldl_cull _ _ s

end Store

theorem KeyOperation.figures_run (op : KeyOperation) (key : Bytes) (s : Store) :
    (op.run key s).2.counters.figures = s.counters.figures := by
  cases hr : op.reading? with
  | some r =>
    rw [run_eq hr]
    exact Store.figures_onKey r.plan s key
  | none =>
    cases op <;> cases hr
    · exact Store.figures_set s key _ _
    · exact Store.figures_add s key _

theorem StemOperation.figures_run (op : StemOperation) (stem : Bytes) (s : Store) :
    (op.run stem s).2.counters.figures = s.counters.figures := by
  by_cases hover : op.Stores ∧ s.OverBudget
  · rw [run_of_overBudget hover.1 hover.2]
  · rw [run_eq fun hs ho => hover ⟨hs, ho⟩]
    exact Store.figures_onStem _ s stem

/-- **An operation leaves the figures alone**, unless it is an entry about
them. -/
theorem Operation.figures_run {op : Operation} (h : ∀ figures, op ≠ .note figures) (s : Store) :
    (op.run s).2.counters.figures = s.counters.figures := by
  cases op with
  | onKey key op => exact op.figures_run key s
  | onStem stem op => exact op.figures_run stem s
  | check id => exact Store.figures_liveAt s id
  | expireSweep => exact Store.figures_expireSweep s
  | memorySweep => exact Store.figures_memorySweep s
  | destroyAll => exact Store.figures_destroyAll s
  | setClock now => rfl
  | note figures => exact absurd rfl (h figures)

/-- A command is no entry about the server. -/
theorem Command.figures_run (c : Command) (s : Store) :
    (c.run s).2.counters.figures = s.counters.figures := by
  rw [c.run_snd]
  cases hop : c.operation? with
  | none => rfl
  | some op =>
    refine Operation.figures_run (fun figures => ?_) s
    rintro rfl
    cases c <;> cases hop

/-! ## Counting clients -/

/-- The counts of clients and of connections. -/
def Counters.counted (c : Counters) : Nat × Nat := (c.clients, c.connections)

theorem Counters.counted_of_figures {c d : Counters} (h : d.figures = c.figures) :
    d.counted = c.counted :=
  congrArg (fun f : Figures => (f.clients, f.connections)) h

namespace Store

/-- **Answering counts no client.** -/
theorem counted_answer (s : Store) (fields : FieldLimits) (wall : Int) (r : Request) :
    (s.answer fields wall r).2.counters.counted = s.counters.counted := by
  unfold answer dispatch
  cases Command.ofRequest fields r with
  | error refusal => rfl
  | ok command =>
    have hrun := command.figures_run (s.setClock wall).countRequest
    exact (Counters.counted_of_figures hrun).trans rfl

theorem counted_answerAny (s : Store) (fields : FieldLimits) (wall : Int)
    (asked : Option Request) :
    (s.answerAny fields wall asked).counters.counted = s.counters.counted := by
  cases asked with
  | none => rfl
  | some r => exact counted_answer s fields wall r

/-- **Nor does upkeep.** -/
theorem counted_keep (s : Store) (u : Upkeep) :
    (s.keep u).counters.counted = s.counters.counted := by
  cases u with
  | cron wall => rfl
  | expire => exact Counters.counted_of_figures (figures_expireSweep s)
  | evict available resident =>
    have hsweep :=
      figures_memorySweep { s with counters := { s.counters with available, resident } }
    exact (Counters.counted_of_figures hsweep).trans rfl
  | clear => exact Counters.counted_of_figures (figures_destroyAll s)

end Store

end PrefixCache

import PrefixCache.Proofs.Request.Serving
import PrefixCache.Proofs.Store.Visiting
/-!
# Requests that fail

A failure changes nothing but the number of requests. A plan that fails at
an item keeps it, as long as its value can be read (`Plan.Careful`);
reading a damaged value would still count as use. An operation on a stem
fails before it meets a member. So what a failed request can have changed
is at most that a lapsed item was found under its key, and destroyed
(`failed_request_changes_nothing`).
-/

namespace PrefixCache

/-! ## Plans -/

namespace Plan

variable {β : Type}

/-- Where the plan fails at an item with a legible value, it keeps it. -/
def Careful (p : Plan β) : Prop :=
  ∀ (limits : StoreLimits) (now : Int) (item : Item) (e : StoreError), item.value.Legible →
    (p limits now item).1 = .error e → (p limits now item).2 = .keep

theorem Careful.unlessLocked {p : Plan β} (h : p.Careful) : p.unlessLocked.Careful := by
  intro limits now item e hlegible he
  unfold Plan.unlessLocked at he ⊢
  split at he
  · next hl => rw [if_pos hl]
  · next hl =>
    rw [if_neg hl]
    exact h limits now item e hlegible he

/-- A plan that never fails is careful. -/
theorem careful_of_ok {p : Plan β} (h : ∀ limits now item, ∃ b, (p limits now item).1 = .ok b) :
    p.Careful := by
  intro limits now item e _ he
  obtain ⟨b, hb⟩ := h limits now item
  rw [hb] at he
  cases he

theorem careful_revise (change : StoreLimits → Int → Item → Item) : (revise change).Careful :=
  careful_of_ok fun _ _ _ => ⟨(), rfl⟩

theorem careful_ask (a : Attribute) : (ask a).Careful :=
  careful_of_ok fun _ now item => ⟨a.of item now, rfl⟩

theorem careful_delete : delete.Careful :=
  Careful.unlessLocked (careful_of_ok fun _ _ _ => ⟨(), rfl⟩)

theorem careful_read : read.Careful := by
  rintro limits now item e ⟨shown, hshown⟩ he
  simp only [read, hshown] at he
  cases he

theorem careful_add (delta : Int64) : (add delta).Careful := by
  refine Careful.unlessLocked ?_
  intro limits now item e _ he
  dsimp only at he ⊢
  cases hn : item.value.asNumber? with
  | none => rfl
  | some n =>
    rw [hn] at he
    cases he

end Plan

theorem KeyOperation.careful {op : KeyOperation} {r : KeyReading} (h : op.onLive? = some r) :
    r.plan.Careful := by
  cases op <;> cases h
  · exact Plan.careful_read
  · exact Plan.careful_delete
  · exact (Plan.careful_revise _).unlessLocked
  · exact Plan.careful_add _
  · exact (Plan.careful_revise _).unlessLocked
  · exact Plan.careful_revise _
  · exact Plan.careful_ask _

/-! ## Stores -/

namespace Store

variable {β : Type} {s : Store} {key : Bytes} {e : StoreError}

/-- Looking at a key destroys a lapsed item there, or does nothing. -/
theorem liveKey_snd (s : Store) (key : Bytes) :
    (s.liveKey key).2 = s ∨
      ∃ item, s.trie.find? key = some item ∧ item.Lapsed s.now ∧
        (s.liveKey key).2 = s.destroyKey key := by
  cases hf : s.trie.findNode? key with
  | none =>
    rw [liveKey_of_none hf]
    exact .inl rfl
  | some id =>
    rw [liveKey_of_some hf, liveAt, Trie.find?_of_findNode? hf]
    cases hget : s.trie.get? id with
    | none => exact .inl rfl
    | some item =>
      by_cases hlapsed : item.Lapsed s.now
      · refine .inr ⟨item, rfl, hlapsed, ?_⟩
        simp only [if_pos hlapsed, destroyKey_eq hf]
      · simp only [if_neg hlapsed, true_or]

/-- A careful plan that fails has found nothing, or has changed nothing. -/
theorem onKey_of_error {p : Plan β} (hp : p.Careful) (hs : s.Holding Value.Legible)
    (he : (s.onKey key p.act).1 = .error e) :
    (s.onKey key p.act).2 = s ∨ (e = .notFound ∧ (s.onKey key p.act).2 = (s.liveKey key).2) := by
  unfold onKey at he ⊢
  cases hf : s.trie.findNode? key with
  | none => exact .inl rfl
  | some id =>
    simp only [hf] at he ⊢
    rw [liveKey_of_some hf]
    cases hitem : s.liveItem? id with
    | none =>
      rw [onNode_of_none hitem] at he ⊢
      exact .inr ⟨(Except.error.inj he).symm, rfl⟩
    | some item =>
      rw [onNode_of_some hitem] at he ⊢
      have hkeep := hp s.limits s.now item e (hs id item (liveItem?_eq_some.1 hitem).1) he
      exact .inl (by simp only [Plan.act, hkeep, Change.apply])

end Store

/-! ## Operations -/

/-- An outcome read in another way fails as it failed. -/
theorem Outcome.map_fst_eq_error {β γ : Type} {f : β → γ} {o : Outcome β} {e : StoreError} :
    (o.map f).1 = .error e ↔ o.1 = .error e := by
  obtain ⟨r, s⟩ := o
  cases r <;> simp [Outcome.map, Except.map]

/-- **An operation on a key that fails** has found nothing, or has changed
nothing. -/
theorem KeyOperation.run_of_error {s : Store} (hs : s.Holding Value.Legible) {op : KeyOperation}
    {key : Bytes} {e : StoreError} (he : (op.run key s).1 = .error e) :
    (op.run key s).2 = s ∨ (e = .notFound ∧ (op.run key s).2 = (s.liveKey key).2) := by
  rcases op.run_cases key s with ⟨refusal, h⟩ | ⟨r, hr, h⟩ | ⟨answer, full, value, ttl, h⟩
  · rw [h]
    exact .inl rfl
  · rw [h] at he ⊢
    exact Store.onKey_of_error (careful hr) hs (Outcome.map_fst_eq_error.1 he)
  · rw [h] at he
    cases he

/-- **An operation on a stem that fails** has changed nothing. -/
theorem StemOperation.run_of_error {s : Store} {op : StemOperation} {stem : Bytes}
    {e : StoreError} (he : (op.run stem s).1 = .error e) : (op.run stem s).2 = s := by
  by_cases hover : op.Stores ∧ s.OverBudget
  · rw [run_of_overBudget hover.1 hover.2]
  · have hfits : op.Stores → ¬ s.OverBudget := fun hstores ho => hover ⟨hstores, ho⟩
    rw [run_eq hfits] at he ⊢
    by_cases hnil : s.trie.searchNodes stem = []
    · rw [Store.onStem_of_nil hnil]
      rfl
    · rw [Store.onStem_of_ne_nil hnil] at he
      cases he

/-! ## Commands -/

/-- The statuses that say no. -/
def Status.Failed : Status → Prop
  | error | notFound | notANumber | outOfMemory | locked => True
  | ok | value | pairs => False

/-- Only a refusal of the store makes an operation fail. -/
theorem Outcome.error_of_failed {β γ : Type} {make : β → Reply}
    (hmake : ∀ b, ¬ (make b).status.Failed) {o : Outcome β} (f : β → γ)
    (h : (o.reply make).1.status.Failed) :
    ∃ e, (o.map f).1 = .error e ∧ (o.reply make).1 = e.reply := by
  obtain ⟨r, s⟩ := o
  cases r with
  | ok b => exact absurd h (hmake b)
  | error e => exact ⟨e, rfl, rfl⟩

/-- **A command that fails** asked for an operation that the store
refused. -/
theorem Command.error_of_failed {c : Command} {s : Store} (h : (c.run s).1.status.Failed) :
    ∃ op e, c.operation? = some op ∧ (op.run s).1 = .error e ∧ (c.run s).1 = e.reply := by
  cases c with
  | stats => exact h.elim
  | ping => exact h.elim
  | finish => exact h.elim
  | _ => exact ⟨_, (Outcome.error_of_failed (fun _ => id) _ h).imp fun _ he => ⟨rfl, he⟩⟩

/-- What a failed command can have changed: a lapsed item was found under
its key, and destroyed. -/
theorem Command.run_of_failed {c : Command} {s : Store} (hs : s.Holding Value.Legible)
    (h : (c.run s).1.status.Failed) :
    (c.run s).2 = s ∨
      ((c.run s).1.status = .notFound ∧ ∃ key op item, c.operation? = some (.onKey key op) ∧
        s.trie.find? key = some item ∧ item.Lapsed s.now ∧ (c.run s).2 = s.destroyKey key) := by
  obtain ⟨op, e, hop, he, hreply⟩ := error_of_failed h
  rw [hreply, c.run_snd, hop]
  simp only [Option.map_some, Option.getD_some]
  cases op with
  | onKey key op =>
    rcases KeyOperation.run_of_error hs he with hsame | ⟨rfl, hlook⟩
    · exact .inl hsame
    · rcases s.liveKey_snd key with hsame | ⟨item, hitem, hlapsed, hdestroyed⟩
      · exact .inl (hlook.trans hsame)
      · exact .inr ⟨rfl, key, op, item, rfl, hitem, hlapsed, hlook.trans hdestroyed⟩
  | onStem stem op => exact .inl (StemOperation.run_of_error he)
  | _ => cases he

/-! ## The law of failed requests -/

/-- **A failed request changes nothing but the number of requests.** In a
store that events lead to, where data is brought in that survives
compression, a body that is no request leaves the store as it is. A
request that is answered with an error, or as no number, out of memory or
locked, is only counted. One that is answered as not found is only
counted, too, unless it is for one key and the item there had lapsed: that
item may have been destroyed. -/
theorem failed_request_changes_nothing {s : Store} (hs : s.Served Event.Restores)
    (fields : FieldLimits) (body : Bytes) :
    (∀ e, (s.execute fields body).1 = .error e → (s.execute fields body).2 = s) ∧
    (∀ reply, (s.execute fields body).1 = .ok reply →
      (reply.status ∈ [.error, .notANumber, .outOfMemory, .locked] →
        (s.execute fields body).2 = s.countRequest) ∧
      (reply.status = .notFound →
        (s.execute fields body).2 = s.countRequest ∨
          ∃ command key op item, Command.ofBody? fields body = some command ∧
            command.operation? = some (.onKey key op) ∧ s.trie.find? key = some item ∧
            item.Lapsed s.now ∧ (s.execute fields body).2 = s.countRequest.destroyKey key)) := by
  have hlegible : s.countRequest.Holding Value.Legible := hs.restoring.legible
  rcases s.execute_cases fields body with ⟨e, -, h⟩ | ⟨r, refusal, -, -, h⟩ |
    ⟨r, command, -, hcommand, h⟩
  · rw [h]
    exact ⟨fun _ _ => rfl, nofun⟩
  · rw [h]
    exact ⟨nofun, fun reply _ => ⟨fun _ => rfl, fun _ => .inl rfl⟩⟩
  · rw [h]
    refine ⟨nofun, fun reply hreply => ?_⟩
    obtain rfl := Except.ok.inj hreply
    refine ⟨fun hstatus => ?_, fun hstatus => ?_⟩
    · have hfailed : (command.run s.countRequest).1.status.Failed := by
        generalize (command.run s.countRequest).1.status = status at hstatus
        cases status <;> trivial
      refine (Command.run_of_failed hlegible hfailed).resolve_right fun hfound => ?_
      rw [hfound.1] at hstatus
      exact absurd hstatus (by decide)
    · have hfailed : (command.run s.countRequest).1.status.Failed := hstatus ▸ trivial
      refine (Command.run_of_failed hlegible hfailed).imp_right ?_
      rintro ⟨-, key, op, item, hop, hitem, hlapsed, hdestroyed⟩
      exact ⟨command, key, op, item, hcommand, hop, hitem, hlapsed, hdestroyed⟩

/-- Events that store a value under `a` for five seconds, words under `b`, and
a value under `c` that is kept compressed; then the time of `a` is over. -/
def Event.elapsing : List Event :=
  [.request {} [1, 0, 53, 32, 97, 32, 120],
    .request {} [1, 0, 48, 32, 98, 32, 104, 105],
    .request {} ([1, 0, 48, 32, 99, 32] ++ List.replicate 32 7),
    .setClock 105]

theorem elapsing_requests_fail :
    let s := (Store.empty { compressAbove := 8 } 100).serve Event.elapsing
    s.Served Event.Restores ∧ (s.trie.find? [99]).any (·.value.encoding = .compressed) ∧
      (s.execute {} [9]).2 = s ∧
      (s.execute {} [5, 0, 98]).2 = s.countRequest ∧
      (s.execute {} [5, 0, 99]).2 = s.countRequest ∧
      ∃ key item, s.trie.find? key = some item ∧ item.Lapsed s.now ∧
        (s.execute {} [3, 0, 97]).2 = s.countRequest.destroyKey key := by
  intro s
  have hs : s.Served Event.Restores := .serve (.empty _ 100) (by decide +kernel)
  refine ⟨hs, by decide +kernel, ?_, ?_, ?_, ?_⟩
  · exact (failed_request_changes_nothing hs {} [9]).1 (.truncated 1) (by decide +kernel)
  · exact ((failed_request_changes_nothing hs {} [5, 0, 98]).2 (.code .notANumber)
      (by decide +kernel)).1 (by decide)
  · exact ((failed_request_changes_nothing hs {} [5, 0, 99]).2 (.code .notANumber)
      (by decide +kernel)).1 (by decide)
  · -- the request is not only counted, since an item goes
    have hgoes : (s.execute {} [3, 0, 97]).2.size ≠ s.countRequest.size := by decide +kernel
    obtain ⟨-, key, -, item, -, -, hitem, hlapsed, hdestroyed⟩ :=
      (((failed_request_changes_nothing hs {} [3, 0, 97]).2 (.code .notFound)
        (by decide +kernel)).2 rfl).resolve_left fun h => hgoes (congrArg Store.size h)
    exact ⟨key, item, hitem, hlapsed, hdestroyed⟩

end PrefixCache

import PrefixCache.Proofs.Store.Plan
import PrefixCache.Request.Dispatch
/-!
# Operations and runs

Everything that happens to a store is one of the operations here: an
operation on a key or on a stem, a look at a node, a sweep, a move of the
clock, or an entry the server makes about itself. A run is a list of
them. A store is `Reachable` when some run leads to it from a store
without items, and `Reached allowed` when a run of allowed operations
does. What a client's command does to the store is one operation or
nothing (`Command.run_snd`).
-/

namespace PrefixCache

/-- An operation on one key. -/
inductive KeyOperation where
  | set (data : Bytes) (ttl : Int)
  | get
  | del
  | setTtl (ttl : Int)
  | add (delta : Int64)
  | lock (seconds : Int)
  | unlock
  | ask (a : Attribute)
  deriving DecidableEq

/-- An operation on all keys with a stem. -/
inductive StemOperation where
  | set (data : Bytes)
  | get
  | del
  | setTtl (ttl : Int)
  | add (delta : Int64)
  | lock (seconds : Int)
  | unlock
  | count
  | keys
  deriving DecidableEq

/-- What the server notes about itself. -/
structure Figures where
  clients : Nat
  cronRuns : Nat
  connections : Nat
  requests : Nat
  available : Nat
  resident : Nat
  deriving DecidableEq

/-- Anything that happens to a store. -/
inductive Operation where
  | onKey (key : Bytes) (op : KeyOperation)
  | onStem (stem : Bytes) (op : StemOperation)
  | check (id : NodeId)
  | expireSweep
  | memorySweep
  | destroyAll
  | setClock (now : Int)
  | note (figures : Figures)
  deriving DecidableEq

/-- What an operation answers. -/
inductive Answer where
  | done
  | value (v : Value)
  | sum (n : Int64)
  | attribute (n : Int)
  | count (n : Nat)
  | pairs (ps : List (Bytes × Value))
  | keys (ks : List Bytes)
  | present (b : Bool)
  | swept (report : SweepReport)
  deriving DecidableEq

/-- The same outcome, its result read in another way. -/
def Outcome.map {β γ : Type} (f : β → γ) (o : Outcome β) : Outcome γ := (o.1.map f, o.2)

/-- Carries out an operation on a key. -/
def KeyOperation.run (op : KeyOperation) (key : Bytes) (s : Store) : Outcome Answer :=
  match op with
  | set data ttl => (s.set key data ttl).map .value
  | get => (s.get key).map .value
  | del => (s.del key).map fun _ => .done
  | setTtl ttl => (s.setTtl key ttl).map fun _ => .done
  | add delta => (s.add key delta).map .sum
  | lock seconds => (s.lock key seconds).map fun _ => .done
  | unlock => (s.unlock key).map fun _ => .done
  | ask a => (s.ask key a).map .attribute

/-- Carries out an operation on a stem. -/
def StemOperation.run (op : StemOperation) (stem : Bytes) (s : Store) : Outcome Answer :=
  match op with
  | set data => (s.setAll stem data).map .count
  | get => (s.getAll stem).map .pairs
  | del => (s.delAll stem).map .count
  | setTtl ttl => (s.setTtlAll stem ttl).map .count
  | add delta => (s.addAll stem delta).map .count
  | lock seconds => (s.lockAll stem seconds).map .count
  | unlock => (s.unlockAll stem).map .count
  | count => (s.count stem).map .count
  | keys => (s.keys stem).map .keys

/-- The counters with what the server notes about itself. -/
def Counters.note (c : Counters) (f : Figures) : Counters :=
  { c with
    clients := f.clients
    cronRuns := f.cronRuns
    connections := f.connections
    requests := f.requests
    available := f.available
    resident := f.resident }

/-- Carries out an operation. -/
def Operation.run (op : Operation) (s : Store) : Outcome Answer :=
  match op with
  | onKey key op => op.run key s
  | onStem stem op => op.run stem s
  | check id => (.ok (.present (s.check id).1), (s.check id).2)
  | expireSweep => (.ok (.swept s.expireSweep.1), s.expireSweep.2)
  | memorySweep => (.ok (.swept s.memorySweep.1), s.memorySweep.2)
  | destroyAll => (.ok (.count s.destroyAll.1), s.destroyAll.2)
  | setClock now => (.ok .done, s.setClock now)
  | note figures => (.ok .done, { s with counters := s.counters.note figures })

/-! ## Plans of operations -/

/-- A plan, and how an operation reads its answer off what the plan
gave. -/
structure KeyReading where
  {β : Type}
  plan : Plan β
  answer : β → Answer

/-- A plan, and how an operation reads its answer off what the members
gave. -/
structure StemReading where
  {β : Type}
  plan : Plan β
  answer : List (Bytes × β) → Answer

/-- The plan of an operation on a key. Storing and adding have none, since
they also do something where there is no item. -/
def KeyOperation.reading? : KeyOperation → Option KeyReading
  | set _ _ => none
  | add _ => none
  | get => some ⟨.read, .value⟩
  | del => some ⟨.delete, fun _ => .done⟩
  | setTtl ttl => some ⟨.live ttl, fun _ => .done⟩
  | lock seconds => some ⟨.lock seconds, fun _ => .done⟩
  | unlock => some ⟨.unlock, fun _ => .done⟩
  | ask a => some ⟨.ask a, .attribute⟩

/-- The plan of an operation on a stem. -/
def StemOperation.reading (s : Store) : StemOperation → StemReading
  | set data => ⟨.replace data.length (s.encode data), fun given => .count given.length⟩
  | get => ⟨.read, .pairs⟩
  | del => ⟨.delete, fun given => .count given.length⟩
  | setTtl ttl => ⟨.live ttl, fun given => .count given.length⟩
  | add delta => ⟨.add delta, fun given => .count given.length⟩
  | lock seconds => ⟨.lock seconds, fun given => .count given.length⟩
  | unlock => ⟨.unlock, fun given => .count given.length⟩
  | count => ⟨.keep, fun given => .count given.length⟩
  | keys => ⟨.keep, fun given => .keys (given.map Prod.fst)⟩

/-- The operation brings data in, and is refused over the budget. -/
def KeyOperation.Stores : KeyOperation → Prop
  | set _ _ => True
  | _ => False

/-- The operation brings data in, and is refused over the budget. -/
def StemOperation.Stores : StemOperation → Prop
  | set _ => True
  | _ => False

theorem Outcome.map_map {β γ δ : Type} (f : β → γ) (g : γ → δ) (o : Outcome β) :
    (o.map f).map g = o.map (g ∘ f) := by
  obtain ⟨r, s⟩ := o
  cases r <;> rfl

/-- An operation on a key carries its plan out at the node of the key. -/
theorem KeyOperation.run_eq {op : KeyOperation} {r : KeyReading} (h : op.reading? = some r)
    (key : Bytes) (s : Store) : op.run key s = (s.onKey key r.plan.act).map r.answer := by
  cases op <;> cases h <;> simp only [KeyOperation.run, Store.get, Store.del, Store.setTtl,
    Store.lock, Store.unlock, Store.ask, Plan.act_read, Plan.act_delete, Plan.act_live,
    Plan.act_lock, Plan.act_unlock, Plan.act_ask]

/-- An operation on a stem carries its plan out on the members. -/
theorem StemOperation.run_eq {op : StemOperation} {s : Store} (h : op.Stores → ¬ s.OverBudget)
    (stem : Bytes) :
    op.run stem s = (s.onStem stem (op.reading s).plan.act).map (op.reading s).answer := by
  have hcount : ∀ {β : Type} (act : Action β), (s.countOnStem stem act).map Answer.count =
      (s.onStem stem act).map fun given => .count given.length := fun act =>
    Outcome.map_map List.length Answer.count (s.onStem stem act)
  cases op with
  | set data =>
    simp only [StemOperation.run, Store.setAll, if_neg (h trivial), hcount, reading,
      Plan.act_replace]
  | keys => exact Outcome.map_map (List.map Prod.fst) Answer.keys (s.onStem stem .keep)
  | _ =>
    simp only [StemOperation.run, Store.getAll, Store.delAll, Store.setTtlAll, Store.addAll,
      Store.lockAll, Store.unlockAll, Store.count, hcount, reading, Plan.act_read,
      Plan.act_delete, Plan.act_live, Plan.act_add, Plan.act_lock, Plan.act_unlock, Plan.act_keep]

/-- Over the budget nothing is brought in. -/
theorem StemOperation.run_of_overBudget {op : StemOperation} {s : Store} (h : op.Stores)
    (hover : s.OverBudget) (stem : Bytes) : op.run stem s = (.error .outOfMemory, s) := by
  cases op with
  | set data => simp only [StemOperation.run, Store.setAll, if_pos hover]; rfl
  | _ => exact h.elim

/-- A stem without members is not found, and nothing happens. -/
theorem StemOperation.run_of_no_members {op : StemOperation} {s : Store}
    (hfits : op.Stores → ¬ s.OverBudget) {stem : Bytes} (hnil : s.trie.search stem = []) :
    op.run stem s = (.error .notFound, s) := by
  rw [run_eq hfits, Store.onStem_of_nil (Trie.search_eq_nil_iff.1 hnil)]
  rfl

namespace Store

/-- The store after a run. -/
def after (s : Store) (ops : List Operation) : Store := ops.foldl (fun s op => (op.run s).2) s

/-- A run of allowed operations leads to the store, from one without
items. -/
inductive Reached (allowed : Operation → Prop) : Store → Prop
  | empty (limits : StoreLimits) (now : Int) : Reached allowed (.empty limits now)
  | step {s : Store} (op : Operation) :
      Reached allowed s → allowed op → Reached allowed (op.run s).2

/-- A run leads to the store, from one without items. -/
abbrev Reachable : Store → Prop := Reached fun _ => True

theorem Reached.reachable {allowed : Operation → Prop} {s : Store} (h : s.Reached allowed) :
    s.Reachable := by
  induction h with
  | empty limits now => exact .empty limits now
  | step op _ _ ih => exact .step op ih trivial

theorem Reached.after {allowed : Operation → Prop} {s : Store} (h : s.Reached allowed)
    {ops : List Operation} (hops : ∀ op ∈ ops, allowed op) : (s.after ops).Reached allowed := by
  induction ops generalizing s with
  | nil => exact h
  | cons op ops ih =>
    exact ih (.step op h (hops op (by simp))) fun later hlater => hops later (by simp [hlater])

end Store

/-! ## Commands -/

/-- The operation a command asks for, if it asks the store for anything. -/
def Command.operation? : Command → Option Operation
  | set key value seconds => some (.onKey key (.set value seconds.toInt))
  | ttl key seconds => some (.onKey key (.setTtl seconds.toInt))
  | get key => some (.onKey key .get)
  | del key => some (.onKey key .del)
  | add key delta => some (.onKey key (.add delta))
  | lock key seconds => some (.onKey key (.lock seconds.toInt))
  | unlock key => some (.onKey key .unlock)
  | ask key a => some (.onKey key (.ask a))
  | allSet stem value => some (.onStem stem (.set value))
  | allTtl stem seconds => some (.onStem stem (.setTtl seconds.toInt))
  | allGet stem => some (.onStem stem .get)
  | allDel stem => some (.onStem stem .del)
  | allAdd stem delta => some (.onStem stem (.add delta))
  | allLock stem seconds => some (.onStem stem (.lock seconds.toInt))
  | allUnlock stem => some (.onStem stem .unlock)
  | count stem => some (.onStem stem .count)
  | keys stem => some (.onStem stem .keys)
  | stats | ping | finish => none

theorem Outcome.reply_snd {β : Type} (make : β → Reply) (o : Outcome β) :
    (o.reply make).2 = o.2 := by
  obtain ⟨r, s⟩ := o
  cases r <;> rfl

/-- **A command does one operation to the store, or nothing.** -/
theorem Command.run_snd (c : Command) (s : Store) :
    (c.run s).2 = (c.operation?.map fun op => (op.run s).2).getD s := by
  cases c with
  | stats => rfl
  | ping => rfl
  | finish => rfl
  | _ => exact Outcome.reply_snd _ _

end PrefixCache

import PrefixCache.Proofs.Request.Serving
import PrefixCache.Proofs.Store.Weighing
/-!
# Requests over the budget

Over the budget nothing is stored, under a key or under the keys with a
stem. Most other operations never make a value larger, so they add nothing
to the memory. The exception is adding: it does not look at the budget, it
brings a counter in where nothing is live, and it turns short numbers into
counters of eight bytes. So over the budget a request takes up memory just
if it adds, by what its items swell (`memory_grows_over_budget_iff`).
-/

namespace PrefixCache

/-! ## Operations -/

/-- The operation adds to numbers. -/
def KeyOperation.Adds : KeyOperation → Prop
  | add _ => True
  | _ => False

/-- The operation adds to numbers. -/
def StemOperation.Adds : StemOperation → Prop
  | add _ => True
  | _ => False

/-- An operation on a stem that neither stores nor adds makes no value
larger. -/
theorem StemOperation.keeps_size {op : StemOperation} (hstores : ¬ op.Stores) (hadds : ¬ op.Adds)
    (s : Store) (n : Nat) : (op.reading s).plan.Keeps fun v => v.size ≤ n := by
  refine (op.succeeds s).keeps fun v hv => ?_
  cases op with
  | set data => exact absurd trivial hstores
  | add delta => exact absurd trivial hadds
  | _ => exact hv.elim

section OverBudget

variable {s : Store}

theorem KeyOperation.memory_run_le (hs : s.Sound) (hover : s.OverBudget) {op : KeyOperation}
    (hadds : ¬ op.Adds) (key : Bytes) :
    (op.run key s).2.counters.memoryUsed ≤ s.counters.memoryUsed := by
  cases hr : op.reading? with
  | some r =>
    rw [run_eq hr]
    exact Store.memory_onKey_le hs (bookable hr) (fun n => keeps hr) key
  | none =>
    cases op with
    | set data ttl =>
      simp only [run, Store.set_of_overBudget hover, Outcome.map]
      exact Nat.le_refl _
    | add delta => exact absurd trivial hadds
    | _ => cases hr

theorem StemOperation.memory_run_le (hs : s.Sound) (hover : s.OverBudget) {op : StemOperation}
    (hadds : ¬ op.Adds) (stem : Bytes) :
    (op.run stem s).2.counters.memoryUsed ≤ s.counters.memoryUsed := by
  by_cases hstores : op.Stores
  · rw [run_of_overBudget hstores hover]
  · rw [run_eq fun h => absurd h hstores]
    exact Store.memory_onStem_le hs (op.bookable s) (keeps_size hstores hadds s) stem

end OverBudget

/-! ## Commands -/

/-- How many bytes a command takes up by adding. No other command takes up
any over the budget. -/
def Command.swelling (s : Store) : Command → Int
  | add key _ => s.swellingUnder key
  | allAdd stem _ => ((s.trie.search stem).map fun m => m.2.swelling s.now).sum
  | _ => 0

/-- **Over the budget a command takes up memory just by adding.** -/
theorem Command.memory_run_lt_iff {s : Store} (hs : s.Sound) (hover : s.OverBudget) (c : Command) :
    s.counters.memoryUsed < (c.run s).2.counters.memoryUsed ↔ 0 < c.swelling s := by
  rw [Command.run_snd]
  cases c with
  | add key delta =>
    have hmemory := Store.memory_add hs key delta
    simp only [operation?, Option.map_some, Option.getD_some, Operation.run, KeyOperation.run,
      Outcome.map, swelling]
    omega
  | allAdd stem delta =>
    have hmemory := Store.memory_addAll hs stem delta
    have hrun : ((StemOperation.add delta).run stem s).2 =
        (s.onStem stem (Plan.add delta).act).2 := by
      rw [StemOperation.run_eq False.elim]
      rfl
    simp only [operation?, Option.map_some, Option.getD_some, Operation.run, hrun, swelling]
    omega
  | stats | ping | finish => exact iff_of_false (Nat.lt_irrefl _) (Int.lt_irrefl _)
  | _ =>
    refine iff_of_false (Nat.not_lt.2 ?_) (Int.lt_irrefl _)
    first
      | exact KeyOperation.memory_run_le hs hover id _
      | exact StemOperation.memory_run_le hs hover id _

/-! ## The law of the budget -/

/-- **Over the budget only adding takes up memory.** In a store that some
run leads to, let more memory be used than the budget allows. Whatever the
body of a request is, there is more memory in use afterwards just if the
body is a command that adds, and what it adds to takes up more bytes than
it gives back. -/
theorem memory_grows_over_budget_iff {s : Store} (hs : s.Reachable) (hover : s.OverBudget)
    (fields : FieldLimits) (body : Bytes) :
    s.counters.memoryUsed < (s.execute fields body).2.counters.memoryUsed ↔
      ∃ c, Command.ofBody? fields body = some c ∧ 0 < c.swelling s := by
  have hcounted : s.countRequest.Sound := hs.sound.rebook rfl ⟨rfl, rfl, rfl, rfl⟩
  rcases s.execute_cases fields body with ⟨e, hbody, h⟩ | ⟨r, refusal, -, hnone, h⟩ |
    ⟨r, command, -, hsome, h⟩
  · have hnone : Command.ofBody? fields body = none := by rw [Command.ofBody?, hbody]; rfl
    simp [h, hnone]
  · rw [h, hnone]
    exact iff_of_false (Nat.lt_irrefl _) (by rintro ⟨c, hc, -⟩; cases hc)
  · -- counting a request changes neither the memory nor what is stored
    rw [h, hsome]
    have hrun := command.memory_run_lt_iff hcounted hover
    have hswelling : command.swelling s.countRequest = command.swelling s := by
      cases command <;> rfl
    rw [hswelling] at hrun
    refine hrun.trans ⟨fun hpos => ⟨command, rfl, hpos⟩, ?_⟩
    rintro ⟨c, hc, hpos⟩
    obtain rfl := Option.some.inj hc
    exact hpos

/-- A store that one item fills beyond its budget. -/
def Store.crammed : Store :=
  (Store.empty { maxMemory := 1 } 100).after [.onKey [97] (.set [120] (-1))]

theorem crammed_store_keeps_its_size :
    Store.crammed.Reachable ∧ Store.crammed.OverBudget ∧
      (Store.crammed.execute {} [1, 0, 48, 32, 98, 32, 104, 105]).2.counters.memoryUsed ≤
        Store.crammed.counters.memoryUsed := by
  have hs : Store.crammed.Reachable := Store.Reached.after (.empty _ 100) fun _ _ => trivial
  have hover : Store.crammed.OverBudget := by decide
  refine ⟨hs, hover, Nat.not_lt.1 fun hlt => ?_⟩
  obtain ⟨c, hc, hpos⟩ :=
    (memory_grows_over_budget_iff hs hover {} [1, 0, 48, 32, 98, 32, 104, 105]).1 hlt
  obtain rfl : Command.set [98] [104, 105] 0 = c := by
    refine Option.some.inj (Eq.trans ?_ hc)
    decide +kernel
  exact absurd hpos (by decide)

/-- **Adding fills a store further** that is over its budget. -/
theorem adding_fills_crammed_store :
    Store.crammed.Reachable ∧ Store.crammed.OverBudget ∧
      Store.crammed.counters.memoryUsed <
        (Store.crammed.execute {} [5, 0, 98]).2.counters.memoryUsed :=
  ⟨Store.Reached.after (.empty _ 100) fun _ _ => trivial, by decide, by decide +kernel⟩

end PrefixCache

import PrefixCache.Proofs.Store.Culling
import PrefixCache.Proofs.Store.Operation
import PrefixCache.Proofs.Store.Storing
/-!
# Runs keep the books right

Every operation keeps a sound store sound (`Operation.upholds_run`), so
every store that a run leads to is sound (`Reached.sound`). How many
compressed items an operation stores can be told from its answer
(`Operation.packed`), and that is what it adds to the count of
compressions.
-/

namespace PrefixCache

/-! ## Plans of operations -/

theorem KeyOperation.bookable {op : KeyOperation} {r : KeyReading} (h : op.reading? = some r) :
    r.plan.Bookable 0 := by
  cases op <;> cases h
  · exact Plan.bookable_read
  · exact Plan.bookable_delete
  · exact Plan.bookable_live _
  · exact Plan.bookable_lock _
  · exact Plan.bookable_unlock
  · exact Plan.bookable_ask _

/-- How many compressed items the operation stores for each member it
succeeds on. -/
def StemOperation.weight (s : Store) : StemOperation → Nat
  | set data => Counters.compressedWeight (s.encode data)
  | _ => 0

theorem StemOperation.bookable (op : StemOperation) (s : Store) :
    (op.reading s).plan.Bookable (op.weight s) := by
  cases op with
  | set data => exact Plan.bookable_replace (s.pos_of_encode_compressed data)
  | get => exact Plan.bookable_read
  | del => exact Plan.bookable_delete
  | setTtl ttl => exact Plan.bookable_live ttl
  | add delta => exact Plan.bookable_add delta
  | lock seconds => exact Plan.bookable_lock seconds
  | unlock => exact Plan.bookable_unlock
  | count => exact Plan.bookable_keep
  | keys => exact Plan.bookable_keep

/-! ## Operations -/

/-- How many compressed items an operation stores: one for a key that was
set, one for every member that was counted, if the data is kept
compressed. -/
def Operation.packed (op : Operation) (s : Store) : Nat :=
  match op, (op.run s).1 with
  | onKey _ (.set data _), .ok _ => Counters.compressedWeight (s.encode data)
  | onStem _ (.set data), .ok (.count n) => Counters.compressedWeight (s.encode data) * n
  | _, _ => 0

theorem Store.upholds_set {s : Store} (h : s.Sound) (key data : Bytes) (ttl : Int) :
    s.Upholds (s.set key data ttl).2 ((Operation.onKey key (.set data ttl)).packed s) := by
  by_cases hover : s.OverBudget
  · simp only [Operation.packed, Operation.run, KeyOperation.run, set_of_overBudget hover]
    exact .refl h
  by_cases hb : s.Barred key
  · simp only [Operation.packed, Operation.run, KeyOperation.run, set_of_barred hover hb]
    exact .refl h
  · have hencode := (sameGround_liveKey s key).encode_eq data
    simp only [Operation.packed, Operation.run, KeyOperation.run, set_of_free hover hb]
    -- a lapsed item goes first, which stores nothing
    have hlook := upholds_liveKey h key
    have hput : (s.liveKey key).2.Upholds ((s.liveKey key).2.put key data ttl) _ :=
      upholds_bringIn hlook.sound ((s.liveKey key).2.pos_of_encode_compressed data)
    have hboth := hlook.trans hput
    rwa [hencode, Nat.zero_add] at hboth

theorem Store.upholds_add {s : Store} (h : s.Sound) (key : Bytes) (delta : Int64) :
    s.Upholds (s.add key delta).2 0 := by
  cases hl : s.liveUnder? key with
  | some item =>
    rw [add_of_some hl]
    exact upholds_onKey h (Plan.bookable_add delta) key
  | none =>
    rw [add_of_none hl]
    exact (upholds_liveKey h key).trans
      (upholds_bringIn (upholds_liveKey h key).sound fun hc => by cases hc)

theorem KeyOperation.upholds_run {s : Store} (h : s.Sound) (op : KeyOperation) (key : Bytes) :
    s.Upholds (op.run key s).2 ((Operation.onKey key op).packed s) := by
  cases hr : op.reading? with
  | some r =>
    have hpacked : (Operation.onKey key op).packed s = 0 := by
      cases op <;> first | cases hr; done | rfl
    rw [run_eq hr, hpacked]
    exact Store.upholds_onKey h (bookable hr) key
  | none =>
    cases op <;> cases hr
    · exact Store.upholds_set h key _ _
    · exact Store.upholds_add h key _

theorem StemOperation.upholds_run {s : Store} (h : s.Sound) (op : StemOperation) (stem : Bytes) :
    s.Upholds (op.run stem s).2 ((Operation.onStem stem op).packed s) := by
  by_cases hover : op.Stores ∧ s.OverBudget
  · have hrun := run_of_overBudget hover.1 hover.2 stem
    have hpacked : (Operation.onStem stem op).packed s = 0 := by
      simp only [Operation.packed, Operation.run, hrun]
    rw [hrun, hpacked]
    exact .refl h
  · have hrun := run_eq (fun hs ho => hover ⟨hs, ho⟩) stem
    -- only replacing stores compressed items, one for each member it counts
    have hpacked : (Operation.onStem stem op).packed s =
        op.weight s * ((s.trie.searchNodes stem).filterMap ((op.reading s).plan.gives s)).length := by
      cases op with
      | set data =>
        simp only [Operation.packed, Operation.run, hrun]
        by_cases hnil : s.trie.searchNodes stem = []
        · rw [Store.onStem_of_nil hnil, hnil]
          rfl
        · simp only [Outcome.map, Store.onStem_fst _ h.arranged hnil]
          rfl
      | _ => simp only [Operation.packed, weight, Nat.zero_mul]
    rw [hrun, hpacked]
    exact Store.upholds_onStem h (op.bookable s) stem

/-- **Every operation keeps the books right.** -/
theorem Operation.upholds_run {s : Store} (h : s.Sound) (op : Operation) :
    s.Upholds (op.run s).2 (op.packed s) := by
  cases op with
  | onKey key op => exact KeyOperation.upholds_run h op key
  | onStem stem op => exact StemOperation.upholds_run h op stem
  | check id => exact Store.upholds_liveAt h id
  | expireSweep => exact Store.upholds_expireSweep h
  | memorySweep => exact Store.upholds_memorySweep h
  | destroyAll => exact Store.upholds_destroyAll h
  | setClock now => exact ⟨h.rebook rfl ⟨rfl, rfl, rfl, rfl⟩, Nat.le_refl _, rfl⟩
  | note figures => exact ⟨h.rebook rfl ⟨rfl, rfl, rfl, rfl⟩, Nat.le_refl _, rfl⟩

/-! ## Runs -/

namespace Store

/-- **Every store that a run leads to is sound.** -/
theorem Reached.sound {allowed : Operation → Prop} {s : Store} (h : s.Reached allowed) :
    s.Sound := by
  induction h with
  | empty limits now => exact sound_empty limits now
  | step op _ _ ih => exact (Operation.upholds_run ih op).sound

/-- How many compressed items a run stores. -/
def packedOver (s : Store) : List Operation → Nat
  | [] => 0
  | op :: ops => op.packed s + (op.run s).2.packedOver ops

theorem upholds_after {s : Store} (h : s.Sound) (ops : List Operation) :
    s.Upholds (s.after ops) (s.packedOver ops) := by
  induction ops generalizing s with
  | nil => exact .refl h
  | cons op ops ih =>
    have hone := Operation.upholds_run h op
    exact hone.trans (ih hone.sound)

end Store

end PrefixCache

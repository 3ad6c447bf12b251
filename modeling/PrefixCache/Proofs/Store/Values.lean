import PrefixCache.Proofs.Store.Succession
/-!
# What values come to be stored

A value in the store was brought in as the kept form of some data, or is a
number. So what holds of all numbers, and of the kept form of all data
that a run brings in, holds of every value in the store
(`Operation.holding_run`). In particular every value can be read when all
data that was brought in survives compression (`Reached.legible`).
-/

namespace PrefixCache

variable {Q brings : Value → Prop} {grants : Int → Prop}

/-! ## From an item to the next -/

/-- **What holds of a value goes on to hold** of the value of what comes
after, if it holds of all values that are brought in. -/
theorem Item.Succeeds.value {limits : StoreLimits} {now : Int} {old : Option Item} {new : Item}
    (h : Item.Succeeds limits now grants brings old new) (hbrings : ∀ v, brings v → Q v)
    (hold : ∀ item ∈ old, Q item.value) : Q new.value := by
  cases h with
  | stays => exact hold _ rfl
  | used item | unlocked item | locked item | granted item => exact hold item rfl
  | summed item hsum => exact hbrings _ hsum
  | came old hvalue => exact hbrings _ hvalue

namespace Plan

variable {β : Type}

/-- What the plan leaves of an item holds a value with the property, if the
item did. -/
def Keeps (p : Plan β) (Q : Value → Prop) : Prop :=
  ∀ (limits : StoreLimits) (now : Int) (item new : Item), Q item.value →
    (p limits now item).2.slot limits now item = some new → Q new.value

theorem Succeeds.keeps {p : Plan β} (h : p.Succeeds grants brings) (hbrings : ∀ v, brings v → Q v) :
    p.Keeps Q := by
  intro limits now item new hitem hnew
  refine (h limits now item new hnew).value hbrings fun old hold => ?_
  obtain rfl := Option.some.inj hold
  exact hitem

end Plan

theorem KeyOperation.keeps {op : KeyOperation} {r : KeyReading} (h : op.reading? = some r) :
    r.plan.Keeps Q :=
  (succeeds h).keeps fun _ => False.elim

/-! ## Stores -/

namespace Store

variable {s : Store}

/-- Every value in the store has the property. -/
def Holding (s : Store) (Q : Value → Prop) : Prop :=
  ∀ (id : NodeId) (item : Item), s.trie.get? id = some item → Q item.value

/-- In particular every value that is found under a key. -/
theorem Holding.of_find? {key : Bytes} {item : Item} (h : s.Holding Q)
    (hf : s.trie.find? key = some item) : Q item.value := by
  obtain ⟨id, -, hget⟩ := Trie.find?_eq_some.1 hf
  exact h id item hget

theorem holding_of_empty (htrie : s.trie = .empty) : s.Holding Q := by
  intro id item hget
  rw [htrie, Trie.get?_empty] at hget
  cases hget

end Store

/-! ## Runs -/

/-- The data that an operation brings in. -/
def Operation.data? : Operation → Option Bytes
  | onKey _ (.set data _) => some data
  | onStem _ (.set data) => some data
  | _ => none

/-- What is brought in has the property, if all numbers and the kept form of
the data do. -/
theorem Operation.holds_of_brings {s : Store} (hnumber : ∀ n, Q (.number n)) {op : Operation}
    (hdata : ∀ data, op.data? = some data → Q (s.encode data)) {v : Value} (h : op.Brings s v) :
    Q v := by
  cases op with
  | onKey key op =>
    cases op with
    | set data ttl => exact (h : v = _) ▸ hdata data rfl
    | add delta =>
      obtain ⟨n, rfl⟩ := h
      exact hnumber n
    | _ => exact h.elim
  | onStem stem op =>
    cases op with
    | set data => exact (h : v = _) ▸ hdata data rfl
    | add delta =>
      obtain ⟨n, rfl⟩ := h
      exact hnumber n
    | _ => exact h.elim
  | _ => exact h.elim

/-- **Every value comes from data or is a number.** -/
theorem Operation.holding_run {s : Store} (hnumber : ∀ n, Q (.number n)) (hs : s.Sound)
    (h : s.Holding Q) {op : Operation} (hdata : ∀ data, op.data? = some data → Q (s.encode data)) :
    (op.run s).2.Holding Q := by
  intro id item hget
  have hs' : (op.run s).2.trie.Arranged := (upholds_run hs op).sound.arranged
  obtain ⟨key, hkey⟩ := hs'.exists_findNode? (Trie.lt_nodeCount_of_get? hget)
  have hf : (op.run s).2.trie.find? key = some item := Trie.find?_eq_some.2 ⟨id, hkey, hget⟩
  exact (succeeds_run hs.arranged hf).value (fun v => holds_of_brings hnumber hdata)
    fun old hold => h.of_find? hold

/-! ## Values that can be read -/

/-- The value can be read. -/
def Value.Legible (v : Value) : Prop := ∃ shown, Store.expose v = .ok shown

/-- The data survives compression. A length is kept in four bytes, so this
is asked of the data of a run and not of all data. -/
def Compression.Restores (data : Bytes) : Prop :=
  ∀ packed ∈ compress? data, restore packed = .ok data

instance (data : Bytes) : Decidable (Compression.Restores data) :=
  inferInstanceAs (Decidable (∀ packed ∈ Compression.compress? data, _))

/-- Whatever the operation brings in survives compression. -/
def Operation.Restores (op : Operation) : Prop :=
  ∀ data ∈ op.data?, Compression.Restores data

instance (op : Operation) : Decidable op.Restores :=
  inferInstanceAs (Decidable (∀ data ∈ op.data?, _))

/-- **What survives compression is shown as it came.** -/
theorem Store.expose_encode (s : Store) {data : Bytes} (h : Compression.Restores data) :
    expose (s.encode data) = .ok (.plain data) := by
  unfold encode
  split
  · cases hc : Compression.compress? data with
    | none => rfl
    | some packed => simp [expose, h packed hc, Except.map]
  · rfl

theorem Store.legible_encode (s : Store) {data : Bytes} (h : Compression.Restores data) :
    (s.encode data).Legible :=
  ⟨.plain data, s.expose_encode h⟩

/-- **Every value can be read**, if all data that was brought in survives
compression. -/
theorem Store.Reached.legible {s : Store} (h : s.Reached Operation.Restores) :
    s.Holding Value.Legible := by
  induction h with
  | empty limits now => exact holding_of_empty rfl
  | step op hreached hop ih =>
    exact Operation.holding_run (fun n => ⟨.number n, rfl⟩) hreached.sound ih
      fun data hdata => Store.legible_encode _ (hop data hdata)

end PrefixCache

import PrefixCache.Proofs.Trie.Running
import Mathlib.Data.Finset.Card
/-!
# Nodes are permanent

A node, once a key leads to it, stays the node of that key, and no node is
there that no stored key needs (`nodes_are_permanent`). Both are read off
the row of names: an operation that stores adds the missing beginnings of
its key at the end of the row, and every other operation that keeps the
nodes leaves the row alone (`Register.names_perform`). So after a run the
row holds the beginnings of what was stored under (`mem_names_after`), and
as a name stands at the place of its node, the row tells which nodes there
are and how many.
-/

namespace PrefixCache

variable {α : Type}

/-- The key that an operation stores under. -/
def TrieOperation.storedKey? : TrieOperation α → Option Bytes
  | .insert key _ => some key
  | _ => none

/-- The keys that a run stores under. -/
def storedKeys (ops : List (TrieOperation α)) : List Bytes :=
  ops.filterMap TrieOperation.storedKey?

theorem storedKeys_cons (op : TrieOperation α) (ops : List (TrieOperation α)) :
    storedKeys (op :: ops) = op.storedKey?.toList ++ storedKeys ops := by
  rw [storedKeys, List.filterMap_cons]
  cases op.storedKey? <;> rfl

/-- The beginnings of keys, the empty one apart. -/
def beginnings (keys : List Bytes) : Finset Bytes := (keys.flatMap List.inits).toFinset.erase []

theorem mem_beginnings {keys : List Bytes} {front : Bytes} :
    front ∈ beginnings keys ↔ front ≠ [] ∧ ∃ key ∈ keys, front <+: key := by
  simp [beginnings]

/-! ## The row of names in a run -/

namespace Register

variable {r : Register α} {op : TrieOperation α} {ops : List (TrieOperation α)}

/-- **What an operation does to the row of names**: it names the key it
stores under, if it stores. -/
theorem names_perform (hop : op ≠ .clear) :
    (r.perform op).2.names = (op.storedKey?.elim r r.name).names := by
  cases op with
  | insert key x => exact names_bind (r.name key) key (some x)
  | remove key => exact names_bind r key none
  | assign id x =>
    simp only [perform, TrieOperation.storedKey?, Option.elim]
    split <;> simp
  | take id => exact names_bindAt r id none
  | replace id x =>
    simp only [perform, TrieOperation.storedKey?, Option.elim]
    split <;> simp
  | recurse start visit state => exact names_recurse r start visit state
  | clear => exact absurd rfl hop
  | find _ | findNode _ | get _ | search _ | searchNodes _ | remember _ => rfl

theorem names_prefix_perform (hop : op ≠ .clear) : r.names <+: (r.perform op).2.names := by
  rw [names_perform hop]
  cases op.storedKey? with
  | some key => exact List.prefix_append _ _
  | none => exact List.prefix_rfl

theorem names_prefix_after (hops : .clear ∉ ops) : r.names <+: (r.after ops).names := by
  induction ops generalizing r with
  | nil => exact List.prefix_rfl
  | cons op ops ih =>
    rw [List.mem_cons, not_or] at hops
    exact (names_prefix_perform (Ne.symm hops.1)).trans (ih hops.2)

/-- **A name is given for every beginning of what is stored under**, and
for nothing else. -/
theorem mem_names_after (hops : .clear ∉ ops) {front : Bytes} :
    front ∈ (r.after ops).names ↔ front ∈ r.names ∨ ∃ key ∈ storedKeys ops, front <+: key := by
  induction ops generalizing r with
  | nil => simp [after, storedKeys]
  | cons op ops ih =>
    rw [List.mem_cons, not_or] at hops
    rw [show r.after (op :: ops) = (r.perform op).2.after ops from rfl, ih hops.2,
      names_perform (Ne.symm hops.1), storedKeys_cons]
    cases op.storedKey? with
    | some key => simp [mem_names_name, or_assoc]
    | none => rfl

/-- The row holds the empty key and the beginnings of what was stored
under. -/
theorem toFinset_names_after {ops : List (TrieOperation α)} (hops : .clear ∉ ops) :
    ((empty : Register α).after ops).names.toFinset =
      insert [] (beginnings (storedKeys ops)) := by
  ext front
  rw [List.mem_toFinset, mem_names_after hops, Finset.mem_insert, mem_beginnings]
  simp only [empty, List.mem_singleton]
  tauto

end Register

namespace Trie

variable {t u : Trie α} {names names' : List Bytes}

/-- A node keeps its key when names are added at the end of the row. -/
theorem Named.findNode?_of_prefix (h : t.Named names) (h' : u.Named names')
    (hnames : names <+: names') {key : Bytes} {id : NodeId} (hf : t.findNode? key = some id) :
    u.findNode? key = some id := by
  obtain ⟨later, rfl⟩ := hnames
  have hname := (h id key).2 hf
  have hid := (List.getElem?_eq_some_iff.1 hname).1
  exact (h' id key).1 ((List.getElem?_append_left hid).trans hname)

/-- An operation that neither stores nor throws the nodes away makes none,
and leaves every key at its node. -/
theorem Refines.findNode?_perform {r : Register α} (h : t.Refines r) {op : TrieOperation α}
    (hop : op ≠ .clear) (hstored : op.storedKey? = none) :
    (t.perform op).2.nodeCount = t.nodeCount ∧ (t.perform op).2.findNode? = t.findNode? := by
  have hnext := (h.perform op).2
  have hnames : (r.perform op).2.names = r.names := by rw [Register.names_perform hop, hstored]; rfl
  constructor
  · rw [← hnext.named.length_eq hnext.arranged, hnames, h.named.length_eq h.arranged]
  · funext key
    rw [← hnext.placeOf?_eq, ← h.placeOf?_eq, Register.placeOf?, Register.placeOf?, hnames]

/-- Only storing makes nodes. -/
theorem Refines.exists_insert_of_nodeCount_lt {r : Register α} (h : t.Refines r)
    {op : TrieOperation α} (hlt : t.nodeCount < (t.perform op).2.nodeCount) :
    ∃ key x, op = .insert key x := by
  by_cases hop : op = .clear
  · subst hop
    exact absurd h.arranged.root_lt (Nat.not_lt.2 (Nat.le_of_lt_succ hlt))
  · cases hstored : op.storedKey? with
    | none => exact absurd (h.findNode?_perform hop hstored).1 (Nat.ne_of_gt hlt)
    | some key =>
      cases op with
      | insert key x => exact ⟨key, x, rfl⟩
      | _ => cases hstored

/-- **Nodes are permanent, and there are no others than are needed.** In a
run from the empty trie that never throws the nodes away, a key that leads
to a node leads to it ever after, whatever else is done; to every node
leads one key, and no two keys lead to one node. The keys that lead to
nodes are the empty one and the beginnings of what was stored under, so
there is one node and one for every such beginning. Only storing makes
nodes; any other operation that keeps them makes none, and leaves every key
at its node. -/
theorem nodes_are_permanent (ops : List (TrieOperation α)) (hops : .clear ∉ ops) :
    let t := (empty : Trie α).after ops
    (∀ later, .clear ∉ later → ∀ key id, t.findNode? key = some id →
      (t.after later).findNode? key = some id) ∧
    (∀ key key' id, t.findNode? key = some id → t.findNode? key' = some id → key = key') ∧
    (∀ id, id < t.nodeCount ↔ ∃! key, t.findNode? key = some id) ∧
    (∀ key, (∃ id, t.findNode? key = some id) ↔ key = [] ∨ key ∈ beginnings (storedKeys ops)) ∧
    t.nodeCount = 1 + (beginnings (storedKeys ops)).card ∧
    (∀ op, t.nodeCount < (t.perform op).2.nodeCount → ∃ key x, op = .insert key x) ∧
    (∀ op, op ≠ .clear → op.storedKey? = none →
      (t.perform op).2.nodeCount = t.nodeCount ∧ (t.perform op).2.findNode? = t.findNode?) := by
  intro t
  have h : t.Refines ((Register.empty : Register α).after ops) := refines_empty.after ops
  have ht := h.arranged
  have hnames := Register.toFinset_names_after hops
  -- no name stands twice in the row, so it is as long as there are names
  have hcount : t.nodeCount = 1 + (beginnings (storedKeys ops)).card := by
    rw [← h.named.length_eq ht, ← List.toFinset_card_of_nodup h.named.nodup, hnames,
      Finset.card_insert_of_notMem (by simp [mem_beginnings]), Nat.add_comm]
  refine ⟨fun later hlater key id => ?_, fun key key' id => ht.findNode?_inj, fun id => ?_,
    fun key => ?_, hcount, fun op => h.exists_insert_of_nodeCount_lt,
    fun op => h.findNode?_perform⟩
  · exact h.named.findNode?_of_prefix (h.after later).named (Register.names_prefix_after hlater)
  · constructor
    · intro hid
      obtain ⟨key, hkey⟩ := ht.exists_findNode? hid
      exact ⟨key, hkey, fun key' hkey' => ht.findNode?_inj hkey' hkey⟩
    · rintro ⟨key, hkey, -⟩
      exact ht.findNode?_lt hkey
  · rw [← h.named.mem_iff, ← List.mem_toFinset, hnames, Finset.mem_insert]

/-- A run that stores under two keys with a common beginning, removes one
of them, and visits what is left. -/
def pruned : List (TrieOperation Nat) :=
  [.insert [97, 98] 1, .insert [97, 99] 2, .remove [97, 98],
    .recurse root (fun _ slot shown => (slot, shown + 1)) 0]

/-- A run that stores the removed key again, and a longer one. -/
def regrown : List (TrieOperation Nat) := [.insert [97, 98, 99] 3, .insert [97, 98] 4, .take 1]

theorem removed_key_keeps_its_node :
    .clear ∉ pruned ∧ .clear ∉ regrown ∧
      (((empty : Trie Nat).after pruned).after regrown).findNode? [97, 98] = some 2 ∧
      ((empty : Trie Nat).after pruned).nodeCount = 4 := by
  have hpruned : .clear ∉ pruned := by simp [pruned]
  have hregrown : .clear ∉ regrown := by simp [regrown]
  obtain ⟨hstays, -, -, -, hcount, -⟩ := nodes_are_permanent pruned hpruned
  exact ⟨hpruned, hregrown, hstays regrown hregrown [97, 98] 2 (by decide),
    hcount.trans (by decide)⟩

end Trie

end PrefixCache

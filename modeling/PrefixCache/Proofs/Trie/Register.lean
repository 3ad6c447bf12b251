import PrefixCache.Trie.Walk
import Mathlib.Data.Finmap
import Mathlib.Data.List.Infix
/-!
# Registers

A register is a finite map from keys to values, with a row of names in
which every key that was ever stored under stands, and every beginning of
one. A name is called by its place in the row. That is all there is: no
nodes, no edges, and nothing remembered. What a trie does is told by what
a register does, where the place of a name stands for the node at the end
of its path.
-/

namespace PrefixCache

/-- A finite map from keys to values, and the names that have been given,
in the order in which they were. -/
structure Register (α : Type) where
  names : List Bytes
  bindings : Finmap fun _ : Bytes => α

namespace Register

variable {α : Type}

/-- Nothing is bound, and the empty key has the first name. -/
def empty : Register α := { names := [[]], bindings := ∅ }

/-- What a key is bound to. -/
def lookup (r : Register α) (key : Bytes) : Option α := r.bindings.lookup key

/-- The place of a name. -/
def placeOf? (r : Register α) (key : Bytes) : Option NodeId := r.names.idxOf? key

/-- What the name at a place is bound to. -/
def lookupAt (r : Register α) (id : NodeId) : Option α := r.names[id]?.bind r.lookup

/-- Gives names to a key and its beginnings where they have none, shorter
ones first. -/
def name (r : Register α) (key : Bytes) : Register α :=
  { r with names := r.names ++ key.inits.filter fun front => front ∉ r.names }

/-- Binds a key, or drops its binding. -/
def bind (r : Register α) (key : Bytes) : Option α → Register α
  | some x => { r with bindings := r.bindings.insert key x }
  | none => { r with bindings := r.bindings.erase key }

/-- Binds the name at a place, or drops its binding. Where there is no
name, nothing happens. -/
def bindAt (r : Register α) (id : NodeId) (slot : Option α) : Register α :=
  match r.names[id]? with
  | some key => r.bind key slot
  | none => r

/-! ## Going through names -/

/-- The names that carry a key on by one byte, in the order in which they
were given. -/
def onward (r : Register α) (key : Bytes) : List Bytes :=
  r.names.filter fun name => name ≠ [] ∧ name.dropLast = key

/-- A key and the names that carry it on, down to a depth: a name comes
before those that carry it on. -/
def outline (r : Register α) : (depth : Nat) → Bytes → List Bytes
  | 0, _ => []
  | depth + 1, key => key :: (r.onward key).flatMap (r.outline depth)

/-- All names with a stem. There are no more levels than names. -/
def walk (r : Register α) (stem : Bytes) : List Bytes :=
  if stem ∈ r.names then r.outline r.names.length stem else []

/-- The bound names with a stem, and their places. -/
def searchNodes (r : Register α) (stem : Bytes) : List (Bytes × NodeId) :=
  ((r.walk stem).filter fun key => (r.lookup key).isSome).map fun key =>
    (key, r.names.idxOf key)

/-- The bound names with a stem, and what they are bound to. -/
def search (r : Register α) (stem : Bytes) : List (Bytes × α) :=
  (r.walk stem).filterMap fun key => (r.lookup key).map fun x => (key, x)

/-- Lets a visitor see what one name is bound to. -/
def visitOne {σ : Type} (visit : Trie.Visitor α σ) : Register α × σ → Bytes → Register α × σ
  | (r, state), key =>
    let (slot, state) := visit (r.names.idxOf key) (r.lookup key) state
    (r.bind key slot, state)

/-- Lets a visitor see what every name is bound to that carries on the
name at a place. -/
def recurse {σ : Type} (r : Register α) (start : NodeId) (visit : Trie.Visitor α σ) (state : σ) :
    Register α × σ :=
  ((r.names[start]?.map r.walk).getD []).foldl (visitOne visit) (r, state)

/-! ## What binding changes -/

@[simp] theorem names_bind (r : Register α) (key : Bytes) (slot : Option α) :
    (r.bind key slot).names = r.names := by
  cases slot <;> rfl

@[simp] theorem lookup_name (r : Register α) (key : Bytes) : (r.name key).lookup = r.lookup := rfl

@[simp] theorem lookup_empty (key : Bytes) : (empty : Register α).lookup key = none :=
  Finmap.lookup_empty key

@[simp] theorem names_bindAt (r : Register α) (id : NodeId) (slot : Option α) :
    (r.bindAt id slot).names = r.names := by
  unfold bindAt
  cases r.names[id]? with
  | some key => exact names_bind r key slot
  | none => rfl

@[simp] theorem names_recurse {σ : Type} (r : Register α) (start : NodeId)
    (visit : Trie.Visitor α σ) (state : σ) : (r.recurse start visit state).1.names = r.names := by
  unfold recurse
  generalize (r.names[start]?.map r.walk).getD [] = keys
  induction keys generalizing r state with
  | nil => rfl
  | cons key keys ih => exact (ih _ _).trans (names_bind r key _)

/-- A name is added for every beginning of a key, and for nothing else. -/
theorem mem_names_name {r : Register α} {key front : Bytes} :
    front ∈ (r.name key).names ↔ front ∈ r.names ∨ front <+: key := by
  simp only [name, List.mem_append, List.mem_filter, List.mem_inits, decide_eq_true_eq]
  tauto

/-- **A binding is seen under its own key only.** -/
theorem lookup_bind (r : Register α) (key : Bytes) (slot : Option α) (key' : Bytes) :
    (r.bind key slot).lookup key' = if key = key' then slot else r.lookup key' := by
  cases slot with
  | some x =>
    by_cases h : key = key'
    · rw [if_pos h, ← h]
      exact Finmap.lookup_insert r.bindings
    · rw [if_neg h]
      exact Finmap.lookup_insert_of_ne r.bindings (Ne.symm h)
  | none =>
    by_cases h : key = key'
    · rw [if_pos h, ← h]
      exact Finmap.lookup_erase key r.bindings
    · rw [if_neg h]
      exact Finmap.lookup_erase_ne (Ne.symm h)

theorem lookupAt_eq {r : Register α} {id : NodeId} {key : Bytes} (h : r.names[id]? = some key) :
    r.lookupAt id = r.lookup key := by
  rw [lookupAt, h, Option.bind_some]

theorem bindAt_eq {r : Register α} {id : NodeId} {key : Bytes} (h : r.names[id]? = some key)
    (slot : Option α) : r.bindAt id slot = r.bind key slot := by
  rw [bindAt, h]

end Register

end PrefixCache

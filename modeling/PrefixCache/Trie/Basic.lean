import PrefixCache.Bytes
/-!
# A trie in an arena

Keys are byte strings, and every byte of a key is one edge. The nodes
stand in one array and refer to each other by index. Removing a key only
empties its slot: nodes never go away, so an index names the same key for
as long as the trie lives.

Every node remembers one position among its children, where lookup looks
first. What is remembered never changes what is found: lookup checks the
label at that position before it believes it.
-/

namespace PrefixCache

/-- The index of a node. -/
abbrev NodeId := Nat

/-- A node: the label of the edge that leads to it, what is stored there,
its children in the order they were added, and the position among them
to try first. -/
structure Node (α : Type) where
  label : UInt8
  slot : Option α := none
  children : List NodeId := []
  remembered : Nat := 0

/-- A trie: its nodes, the root first and every other in the order of
creation, and how many slots are occupied. -/
structure Trie (α : Type) where
  nodes : Array (Node α)
  live : Nat

namespace Trie

variable {α : Type}

/-- The index of the root, where the empty key ends. -/
def root : NodeId := 0

/-- The trie that holds a root and nothing else. -/
def empty : Trie α := { nodes := #[{ label := 0 }], live := 0 }

instance : Inhabited (Trie α) := ⟨empty⟩

/-- How many keys hold a value. -/
def size (t : Trie α) : Nat := t.live

/-- Whether no key holds a value. -/
def isEmpty (t : Trie α) : Bool := t.live == 0

/-- How many nodes there are, the root and emptied ones included. -/
def nodeCount (t : Trie α) : Nat := t.nodes.size

/-! ## Lookup -/

/-- Whether a node is reached by an edge labelled `b`. -/
def hasLabel (t : Trie α) (b : UInt8) (id : NodeId) : Bool :=
  match t.nodes[id]? with
  | some node => node.label == b
  | none => false

/-- The child of a node under the label `b`: the remembered one if it has
that label, otherwise the first that has. -/
def child? (t : Trie α) (parent : NodeId) (b : UInt8) : Option NodeId :=
  match t.nodes[parent]? with
  | none => none
  | some node =>
    match (node.children[node.remembered]?).filter (t.hasLabel b) with
    | some id => some id
    | none => node.children.find? (t.hasLabel b)

/-- The node reached from `id` along a byte string. -/
def descend? (t : Trie α) (id : NodeId) : Bytes → Option NodeId
  | [] => some id
  | b :: rest =>
    match t.child? id b with
    | some next => t.descend? next rest
    | none => none

/-- The node where a key ends, when its whole path exists. -/
def findNode? (t : Trie α) (key : Bytes) : Option NodeId := t.descend? root key

/-- What a node holds. -/
def get? (t : Trie α) (id : NodeId) : Option α := t.nodes[id]?.bind Node.slot

/-- What is stored under a key. -/
def find? (t : Trie α) (key : Bytes) : Option α := (t.findNode? key).bind t.get?

/-! ## Change -/

/-- What a slot adds to the number of occupied slots. -/
def weight (slot : Option α) : Nat := if slot.isSome then 1 else 0

/-- Puts `slot` into a node and gives back what was there. Where there is
no node, nothing happens. -/
def swap (t : Trie α) (id : NodeId) (slot : Option α) : Option α × Trie α :=
  let old := t.get? id
  if id < t.nodeCount then
    (old, { nodes := t.nodes.modify id fun node => { node with slot }
            live := t.live + weight slot - weight old })
  else (none, t)

/-- Empties a node. -/
def take (t : Trie α) (id : NodeId) : Option α × Trie α := t.swap id none

/-- Fills an existing node, and gives back what it held. -/
def replace? (t : Trie α) (id : NodeId) (value : α) : Option (Option α × Trie α) :=
  if id < t.nodeCount then some (t.swap id (some value)) else none

/-- Changes what an occupied node holds, and gives back what it held. -/
def assign (t : Trie α) (id : NodeId) (value : α) : Option α × Trie α :=
  match t.get? id with
  | some _ => t.swap id (some value)
  | none => (none, t)

/-- Lets a node remember a position among its children. -/
def remember (t : Trie α) (id : NodeId) (position : Nat) : Trie α :=
  { t with nodes := t.nodes.modify id fun node => { node with remembered := position } }

/-- Adds a child and remembers it. -/
def addChild (t : Trie α) (parent : NodeId) (b : UInt8) : Trie α × NodeId :=
  let id := t.nodeCount
  ({ t with nodes := (t.nodes.push { label := b }).modify parent fun node =>
      { node with children := node.children ++ [id], remembered := node.children.length } }, id)

/-- The node reached from `id` along a byte string, where missing nodes
are added. -/
def reach (t : Trie α) (id : NodeId) : Bytes → Trie α × NodeId
  | [] => (t, id)
  | b :: rest =>
    match t.child? id b with
    | some next => t.reach next rest
    | none =>
      let (t, next) := t.addChild id b
      t.reach next rest

/-- Stores a value under a key, and gives back the one it replaces. -/
def insert (t : Trie α) (key : Bytes) (value : α) : Option α × Trie α :=
  let (t, id) := t.reach root key
  t.swap id (some value)

/-- Removes a key, and gives back its value. -/
def remove (t : Trie α) (key : Bytes) : Option α × Trie α :=
  match t.findNode? key with
  | some id => t.take id
  | none => (none, t)

end Trie

end PrefixCache

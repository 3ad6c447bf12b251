import PrefixCache.Trie.Basic
/-!
# Walking a trie

A walk meets a node before its children, and children in the order they
were added. Searching below a stem and visiting every slot are both read
off one walk, `subtree`, so they agree on the order.
-/

namespace PrefixCache

namespace Trie

variable {α : Type}

/-- A node on a walk, with the labels that lead to it from where the walk
began, the last first. -/
structure Step where
  id : NodeId
  trail : Bytes

/-- The children of a node that has been met, as the next steps. -/
def stepsBelow (t : Trie α) (step : Step) (node : Node α) : List Step :=
  node.children.map fun id =>
    { id, trail := (match t.nodes[id]? with | some child => child.label | none => 0) :: step.trail }

/-- Walks on with the steps that lie ahead; `met` holds the steps taken,
the last first. -/
def walkOn (t : Trie α) : (fuel : Nat) → (ahead met : List Step) → List Step
  | 0, _, met => met.reverse
  | _ + 1, [], met => met.reverse
  | fuel + 1, step :: ahead, met =>
    match t.nodes[step.id]? with
    | none => t.walkOn fuel ahead met
    -- Children go before everything that was already ahead.
    | some node => t.walkOn fuel (t.stepsBelow step node ++ ahead) (step :: met)

/-- The walk through everything at or below a node. No node is met twice,
so the number of nodes bounds its length. -/
def subtree (t : Trie α) (start : NodeId) : List Step :=
  t.walkOn t.nodeCount [{ id := start, trail := [] }] []

/-- The keys with a given stem that hold a value, and their nodes. -/
def searchNodes (t : Trie α) (stem : Bytes) : List (Bytes × NodeId) :=
  match t.findNode? stem with
  | none => []
  | some start =>
    (t.subtree start).filterMap fun step =>
      (t.get? step.id).map fun _ => (stem ++ step.trail.reverse, step.id)

/-- The keys with a given stem, and their values. -/
def search (t : Trie α) (stem : Bytes) : List (Bytes × α) :=
  (t.searchNodes stem).filterMap fun (key, id) => (t.get? id).map fun value => (key, value)

/-- A visitor sees a node and its slot, leaves something in the slot, and
carries a state along. -/
abbrev Visitor (α σ : Type) := NodeId → Option α → σ → Option α × σ

/-- Lets a visitor see one node. -/
def visitOne {σ : Type} (visit : Visitor α σ) : Trie α × σ → Step → Trie α × σ
  | (t, state), step =>
    let (slot, state) := visit step.id (t.get? step.id) state
    ((t.swap step.id slot).2, state)

/-- Lets a visitor see every node at or below `start`. -/
def recurse {σ : Type} (t : Trie α) (start : NodeId) (visit : Visitor α σ) (state : σ) :
    Trie α × σ :=
  (t.subtree start).foldl (visitOne visit) (t, state)

end Trie

end PrefixCache

import PrefixCache.Store.Basic
/-!
# Actions on items

An action does something to one live item. The operations on a key run an
action on the item of that key, and the operations on a stem run the same
action on every member in turn, so what happens to one item is written
down once.
-/

namespace PrefixCache

/-- Something done to the live item of a node. -/
abbrev Action (β : Type) := NodeId → Item → Store → Outcome β

namespace Action

variable {β : Type}

/-- The action, refused when the item is locked. -/
def unlessLocked (act : Action β) : Action β := fun id item s =>
  if item.Locked s.now then (.error .locked, s) else act id item s

/-- Leaves the item as it is. -/
def keep : Action Unit := fun _ _ s => (.ok (), s)

/-- Reads an attribute. -/
def ask (a : Attribute) : Action Int := fun _ item s => (.ok (a.of item s.now), s)

/-- Changes the item in place. -/
def revise (change : Item → Int → Item) : Action Unit := fun id item s =>
  (.ok (), s.reviseAt id item (change item s.now))

/-- Reads the value, which counts as use of the item. -/
def read : Action Value := fun id item s =>
  let s := s.reviseAt id item (item.touch s.now)
  match Store.expose item.value with
  | .ok value => (.ok value, s)
  | .error _ => (.error .corrupt, s)

/-- Removes the item. -/
def delete : Action Unit := unlessLocked fun id _ s => (.ok (), s.destroyAt id)

/-- Starts a new time to live. -/
def live (ttl : Int) : Action Unit := unlessLocked fun id item s =>
  revise (fun item now => { item.restart now with ttl := s.clampTtl ttl }) id item s

/-- Locks the item for some seconds, for good when there are fewer than
none. -/
def lock (seconds : Int) : Action Unit := unlessLocked <| revise fun item now =>
  { item.restart now with lock := if seconds < 0 then Item.permanentLock else seconds }

/-- Takes the lock off. -/
def unlock : Action Unit := revise fun item now => { item.touch now with lock := 0 }

/-- Adds to a number, which becomes a counter if it was not one yet. The
sum wraps around. -/
def add (delta : Int64) : Action Int64 := unlessLocked fun id item s =>
  match item.value.asNumber? with
  | none => (.error .notANumber, s)
  | some n =>
    let sum := n + delta
    (.ok sum, s.reviseAt id item { item.touch s.now with value := .number sum })

/-- Replaces the item by a new one that holds `value`, the kept form of
`full` bytes, for ever. -/
def replace (full : Nat) (value : Value) : Action Unit := unlessLocked fun id _ s =>
  let (item, s) := (s.countCompression full value).create value (-1)
  (.ok (), s.insertAt id item)

end Action

namespace Store

variable {β : Type}

/-- Runs an action on the item of a node, if it is live. -/
def onNode (s : Store) (id : NodeId) (act : Action β) : Outcome β :=
  match s.liveAt id with
  | (none, s) => (.error .notFound, s)
  | (some item, s) => act id item s

/-- Runs an action on the item of a key, if it is live. -/
def onKey (s : Store) (key : Bytes) (act : Action β) : Outcome β :=
  match s.trie.findNode? key with
  | none => (.error .notFound, s)
  | some id => s.onNode id act

/-- Runs an action on one member, and keeps what it gave. -/
def onMember (act : Action β) : List (Bytes × β) × Store → Bytes × NodeId →
    List (Bytes × β) × Store
  | (given, s), (key, id) =>
    match s.onNode id act with
    | (.ok b, s) => ((key, b) :: given, s)
    | (.error _, s) => (given, s)

/-- Runs an action on every live item whose key starts with `stem`, in
the order of the walk, and gives what the successful ones gave. Only a
stem without any item at all is not found. -/
def onStem (s : Store) (stem : Bytes) (act : Action β) : Outcome (List (Bytes × β)) :=
  match s.trie.searchNodes stem with
  | [] => (.error .notFound, s)
  | members =>
    let (given, s) := members.foldl (onMember act) ([], s)
    (.ok given.reverse, s)

/-- Runs an action on every live item whose key starts with `stem`, and
counts the successes. -/
def countOnStem (s : Store) (stem : Bytes) (act : Action β) : Outcome Nat :=
  let (given, s) := s.onStem stem act
  (given.map List.length, s)

end Store

end PrefixCache

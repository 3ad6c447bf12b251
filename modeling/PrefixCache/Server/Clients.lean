/-!
# The client table

The table holds at most `capacity` clients. Every client gets a number of
its own, never used before (`register_lt_nextId`), and the table remembers
when each was last heard from.
-/

namespace PrefixCache

/-- The number of a client. -/
abbrev ClientId := Nat

/-- A client in the table. -/
structure Client where
  id : ClientId
  peer : String
  /-- When it was last heard from, in milliseconds. -/
  lastSeen : Nat
  /-- A task serves it, and can be aborted. -/
  served : Bool := false
  deriving Repr, DecidableEq

/-- The client table, in the order of registration. -/
structure Clients where
  entries : List Client := []
  nextId : ClientId := 1
  capacity : Nat
  deriving Repr, DecidableEq

namespace Clients

/-- How many clients are registered. -/
def size (t : Clients) : Nat := t.entries.length

/-- Registers a client, unless the table is full. -/
def register (t : Clients) (peer : String) (now : Nat) : Option ClientId × Clients :=
  if t.capacity ≤ t.size then (none, t)
  else
    (some t.nextId,
      { t with
        entries := t.entries ++ [{ id := t.nextId, peer, lastSeen := now }]
        nextId := t.nextId + 1 })

/-- Changes a registered client. -/
def update (t : Clients) (id : ClientId) (change : Client → Client) : Clients :=
  { t with entries := t.entries.map fun c => if c.id = id then change c else c }

/-- Records that a task serves a client. -/
def attach (t : Clients) (id : ClientId) : Clients := t.update id fun c => { c with served := true }

/-- Records that a client was heard from. -/
def touch (t : Clients) (id : ClientId) (now : Nat) : Clients :=
  t.update id fun c => { c with lastSeen := now }

/-- Whether a client is registered. -/
def contains (t : Clients) (id : ClientId) : Bool := t.entries.any fun c => c.id == id

/-- Removes a client. -/
def remove (t : Clients) (id : ClientId) : Clients :=
  { t with entries := t.entries.filter fun c => c.id != id }

/-- The clients that a task serves and that were silent for longer than
`most`. -/
def idle (t : Clients) (now most : Nat) : List Client :=
  t.entries.filter fun c => c.served && decide (most < now - c.lastSeen)

/-- The clients that a task serves. -/
def served (t : Clients) : List Client := t.entries.filter Client.served

/-- A number that has been given out is below every number still to be
given out. -/
theorem register_lt_nextId {t t' : Clients} {peer : String} {now : Nat} {id : ClientId}
    (h : t.register peer now = (some id, t')) : id < t'.nextId := by
  unfold register at h
  split at h
  · cases h
  · obtain ⟨hid, rfl⟩ := Prod.mk.inj h
    cases hid
    exact Nat.lt_succ_self _

end Clients

end PrefixCache

import PrefixCache.Report
import PrefixCache.Request.Dispatch
import PrefixCache.Server.Clients
import PrefixCache.Settings.Basic
/-!
# The hub

The hub is what all connections and chores of a server share: the store,
the limits of fields, and the client table. It keeps the counters of
clients in step with the table.
-/

namespace PrefixCache

/-- A moment: the seconds of the calendar, and the milliseconds since the
server began. -/
structure Moment where
  wall : Int
  tick : Nat
  deriving Repr, DecidableEq

/-- A buffer that a connection reads into: its client, and how many buffers
the connection had before. -/
structure BufferId where
  client : ClientId
  number : Nat
  deriving Repr, DecidableEq

/-- What connections and chores share. -/
structure Hub where
  store : Store
  fields : FieldLimits
  clients : Clients
  /-- Which buffer the value under a key came in. -/
  loans : Trie BufferId := .empty

namespace Hub

/-- The hub of a server that begins at `now`. -/
def ofSettings (c : Settings) (now : Int) : Hub :=
  { store := .empty c.storeLimits now
    fields := c.fieldLimits
    clients := { capacity := c.maxClients } }

/-- Sets the number of connected clients to that of the table, and adds to
the number of connections. -/
def countClients (h : Hub) (more : Nat) : Hub :=
  { h with store := { h.store with counters := { h.store.counters with
      clients := h.clients.size
      connections := h.store.counters.connections + more } } }

/-- Registers a client, unless the table is full. -/
def register (h : Hub) (peer : String) (tick : Nat) : Option ClientId × Hub :=
  match h.clients.register peer tick with
  | (none, _) => (none, h)
  | (some id, clients) => (some id, { h with clients }.countClients 1)

/-- Removes a client, if it is registered. -/
def unregister (h : Hub) (id : ClientId) : Hub :=
  if h.clients.contains id then
    { h with clients := h.clients.remove id }.countClients 0
  else h

/-- Records that a task serves a client. -/
def attach (h : Hub) (id : ClientId) : Hub := { h with clients := h.clients.attach id }

/-- Records that a client was heard from. -/
def touch (h : Hub) (id : ClientId) (tick : Nat) : Hub :=
  { h with clients := h.clients.touch id tick }

/-- Answers a request at a moment. -/
def dispatch (h : Hub) (wall : Int) (r : Request) : Reply × Hub :=
  let (reply, store) := (h.store.setClock wall).dispatch h.fields r
  (reply, { h with store })

/-- The seconds since the server began, in a signed word. -/
def uptime (h : Hub) : Int := wrap64 (h.store.now - h.store.counters.started)

/-- The figures of the server. -/
def snapshot (h : Hub) : Snapshot :=
  { uptime := h.uptime
    memoryUsed := h.store.counters.memoryUsed
    maxMemory := h.store.limits.maxMemory
    items := h.store.size
    clients := h.clients.size }

/-- The summary that is written from time to time. -/
def summary (h : Hub) : String :=
  let c := h.store.counters
  "MEM " ++ Report.size c.memoryUsed ++ "/" ++ Report.size h.store.limits.maxMemory
    ++ s!" - CLIENTS {h.clients.size} - OBJECTS {c.items} ( {c.compressedItems} COMPRESSED )"
    ++ " - AVERAGE SIZE " ++ Report.size c.averageSize.toUInt64.toNat
    ++ " - UPTIME " ++ Report.span h.uptime

end Hub

end PrefixCache

import PrefixCache.Connection.Link
import PrefixCache.Server.Timers
/-!
# A running server

A server owns the hub, the links of its clients and five chores that run
on timers. Time passes only by `elapse`: due chores run, and after every
change all links go on until they wait.

Stopping happens in steps. Raising the stop flag only marks the wish; the
next cron run sees it, stops all chores and tells the connections. Idle
ones end, busy ones may finish what they have begun, for as long as a
client may be idle. Then the remaining ones are aborted and every item is
destroyed.
-/

namespace PrefixCache

/-- What a server does from time to time. -/
inductive Chore where
  /-- Sets the clock, takes the figures, and looks at the stop flag. -/
  | cron
  /-- Destroys lapsed items. -/
  | expire
  /-- Measures memory and evicts. -/
  | evict
  /-- Drops silent clients. -/
  | reap
  /-- Writes the summary. -/
  | report
  deriving Repr, DecidableEq

/-- How far a server has come. -/
inductive Stage where
  | serving
  /-- Told to stop; it waits for its clients, looks again at `look`, and
  waits no longer than `deadline`. -/
  | draining (look deadline : Nat)
  | over
  deriving Repr, DecidableEq

/-- A running server. -/
structure Server where
  settings : Settings
  hub : Hub
  links : List Link := []
  timers : Timers Chore
  /-- Milliseconds since the server began. -/
  tick : Nat := 0
  /-- The seconds of the calendar. -/
  wall : Int
  /-- Memory the machine has left, and memory the process holds. -/
  measured : Nat × Nat
  stopRaised : Bool := false
  stage : Stage := .serving
  /-- The figures of the last cron run. -/
  figures : Snapshot

namespace Server

/-- A period is at least one millisecond. -/
def period (millis : Nat) : Nat := max 1 millis

/-- How often a chore runs. -/
def chorePeriod (c : Settings) : Chore → Nat
  | .cron => period c.cronPeriod
  | .expire => period c.expiryPeriod
  | .evict => period c.memoryPeriod
  | .reap => period (max c.maxIdle c.cronPeriod)
  | .report => period c.statsPeriod

/-- The chores, in the order in which they are first armed. -/
def chores : List Chore := [.cron, .expire, .evict, .reap, .report]

/-- How long a stopping server waits before it looks at its clients
again. -/
def drainPause : Nat := 10

/-- A server that begins. -/
def start (settings : Settings) (wall : Int) (measured : Nat × Nat) : Server :=
  let hub := Hub.ofSettings settings wall
  { settings, hub, wall, measured
    timers := chores.foldl (fun ts c => ts.arm c 0 (chorePeriod settings c)) []
    figures := hub.snapshot }

/-- The moment a server is at. -/
def moment (s : Server) : Moment := { wall := s.wall, tick := s.tick }

/-- What the connections of a server know. -/
def notice (s : Server) : Notice :=
  match s.stage with
  | .serving => .running
  | _ => .stopping

/-- Serves links one after the other. -/
def serveAll (notice : Notice) (m : Moment) : List Link → Hub → List Link × Hub
  | [], h => ([], h)
  | l :: rest, h =>
    let (l, h) := l.serve h notice m
    let (rest, h) := serveAll notice m rest h
    (l :: rest, h)

/-- Lets all links go on until they wait. -/
def settle (s : Server) : Server :=
  let (links, hub) := serveAll s.notice s.moment s.links s.hub
  { s with links, hub }

/-- Aborts the links of clients, one after the other. All of them have begun:
a link goes on until it waits as soon as its client is accepted. -/
def abortAll (doomed : ClientId → Bool) : List Link → Hub → List Link × Hub
  | [], h => ([], h)
  | l :: rest, h =>
    let (l, h) := if doomed l.connection.client then l.abortServed true h else (l, h)
    let (rest, h) := abortAll doomed rest h
    (l :: rest, h)

/-- Aborts the links of clients. -/
def abortClients (s : Server) (clients : List Client) : Server :=
  let (links, hub) := abortAll (fun id => clients.any fun c => c.id == id) s.links s.hub
  { s with links, hub }

/-! ## Chores -/

/-- The cron run: the clock, the count of runs, the figures, and the stop
flag. -/
def runCron (s : Server) : TimerAction × Server :=
  let store := s.hub.store.setClock s.wall
  let store := { store with counters :=
    { store.counters with cronRuns := store.counters.cronRuns + 1 } }
  let hub := { s.hub with store }
  let s := { s with hub, figures := hub.snapshot }
  if s.stopRaised then
    (.stop, { s with stage := .draining s.tick (s.tick + s.settings.maxIdle) })
  else (.rearm (chorePeriod s.settings .cron), s)

/-- Runs a chore. -/
def runChore (chore : Chore) (s : Server) : TimerAction × Server :=
  let again := TimerAction.rearm (chorePeriod s.settings chore)
  match chore with
  | .cron => s.runCron
  | .expire => (again, { s with hub := { s.hub with store := s.hub.store.expireSweep.2 } })
  | .evict =>
    let counters := { s.hub.store.counters with
      available := s.measured.1, resident := s.measured.2 }
    let store := { s.hub.store with counters }
    (again, { s with hub := { s.hub with store := store.memorySweep.2 } })
  | .reap => (again, s.abortClients (s.hub.clients.idle s.tick s.settings.maxIdle))
  | .report => (again, s)

/-! ## Stopping -/

/-- Ends a server: the links that are left are aborted, and every item is
destroyed. -/
def conclude (s : Server) : Server :=
  let s := s.abortClients s.hub.clients.served
  { s with
    hub := { s.hub with store := s.hub.store.destroyAll.2 }
    stage := .over }

/-- A stopping server looks whether it has waited long enough. -/
def look (s : Server) (deadline : Nat) : Server :=
  if s.hub.clients.size = 0 ∨ deadline ≤ s.tick then s.conclude
  else { s with stage := .draining (s.tick + drainPause) deadline }

/-! ## Time -/

/-- The next thing to happen before `limit`: it has a time, and changes the
server at that time. A stopping server runs no chores. -/
def nextEvent? (s : Server) (limit : Nat) : Option (Nat × (Server → Server)) :=
  match s.stage with
  | .serving =>
    (s.timers.next? limit).map fun (t, rest) =>
      (t.due, fun s =>
        match runChore t.label s with
        | (.rearm delay, s) => { s with timers := rest.arm t.label t.due delay }
        | (.stop, s) => { s with timers := [] })
  | .draining at_ deadline => if at_ < limit then some (at_, fun s => s.look deadline) else none
  | .over => none

/-- Lets things happen before a time, at most `events` of them. -/
def elapseFor (limit : Nat) : (events : Nat) → Server → Server
  | 0, s => { s with tick := limit }
  | events + 1, s =>
    match s.nextEvent? limit with
    | none => { s with tick := limit }
    | some (time, change) =>
      -- A pause that began late may be over already; time never goes back.
      elapseFor limit events (change { s with tick := max s.tick time }).settle

/-- Lets some milliseconds pass. In each of them every chore runs at most
once. What is due at their end happens when more time passes. -/
def elapse (s : Server) (millis : Nat) : Server :=
  elapseFor (s.tick + millis) (6 * (millis + 2)) s

/-- Raises the stop flag. -/
def raiseStop (s : Server) : Server := { s with stopRaised := true }

/-- Raises the stop flag and lets time pass until the server is over: one
cron period, the time for the clients, and one pause. -/
def finish (s : Server) : Server :=
  s.raiseStop.elapse (chorePeriod s.settings .cron + s.settings.maxIdle + 2 * drainPause)

/-! ## Clients -/

/-- Accepts a client and serves it, unless the table is full. -/
def accept (s : Server) (peer : String) : Option ClientId × Server :=
  match s.hub.register peer s.tick with
  | (none, _) => (none, s)
  | (some id, hub) =>
    let link : Link :=
      { connection := { client := id, limits := s.settings.connectionLimits } }
    (some id, settle { s with hub := hub.attach id, links := s.links ++ [link] })

/-- The link of a client. -/
def link? (s : Server) (id : ClientId) : Option Link :=
  s.links.find? fun l => l.connection.client == id

/-- Changes the link of a client, and lets all links go on. -/
def onLink (s : Server) (id : ClientId) (change : Link → Link) : Server :=
  let links := s.links.map fun l => if l.connection.client = id then change l else l
  settle { s with links }

/-- Whether a client is still served. -/
def isServing (s : Server) (id : ClientId) : Bool := (s.link? id).any Link.isRunning

/-- Takes what has left for a client off its wire. The link of a client
that is not served any more is forgotten with that. -/
def collect (s : Server) (id : ClientId) : Bytes × Server :=
  let mine := fun (l : Link) => l.connection.client == id
  let sent := ((s.link? id).map fun l => l.wire.written).getD []
  let links := (s.links.filter fun l => !mine l || l.isRunning).map fun l =>
    if mine l then { l with wire := { l.wire with pieces := [] } } else l
  (sent, { s with links })

end Server

end PrefixCache

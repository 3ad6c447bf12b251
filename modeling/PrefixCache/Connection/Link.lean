import PrefixCache.Connection.Basic
/-!
# Links

A link is a connection together with its end of a stream. The wire holds
what has arrived and says how much may leave; `run` lets the connection
go on until it has to wait or ends. `effort` bounds how long that takes:
every step makes it smaller.
-/

namespace PrefixCache

/-- How the input of a stream goes on after what has arrived. -/
inductive Input where
  | live
  | ended
  | broken (why : String)
  deriving Repr, DecidableEq

/-- How many bytes a stream takes. -/
inductive Room where
  | unlimited
  | bytes (n : Nat)
  | broken (why : String)
  deriving Repr, DecidableEq

/-- A connection's end of a stream. -/
structure Wire where
  /-- Bytes that have arrived and are not read yet. -/
  arrived : ByteQueue := .empty
  input : Input := .live
  room : Room := .unlimited
  /-- The pieces that have left, the last one first. -/
  pieces : List Bytes := []
  deriving Repr, DecidableEq

namespace Wire

/-- The bytes that have left. -/
def written (w : Wire) : Bytes := w.pieces.reverse.flatten

/-- Lets a piece leave. -/
def write (w : Wire) (bs : Bytes) : Wire := { w with pieces := bs :: w.pieces }

@[simp] theorem written_write (w : Wire) (bs : Bytes) :
    (w.write bs).written = w.written ++ bs := by
  simp [written, write]

end Wire

/-- What connections know about the server: it runs, it is stopping, or
nobody is left to say so. -/
inductive Notice where
  | running
  | stopping
  | gone
  deriving Repr, DecidableEq

/-- Whether a link still runs. -/
inductive LinkState where
  | running
  | ended (e : Ending)
  | aborted

/-- A connection with its end of a stream. -/
structure Link where
  connection : Connection
  wire : Wire := {}
  state : LinkState := .running

/-- What a link does next. -/
inductive LinkTurn where
  | goesOn (c : Connection) (w : Wire) (h : Hub)
  | waits
  | ends (e : Ending) (w : Wire) (h : Hub)

namespace Link

/-- Reads of what has arrived as much as fits. An idle connection does not
read any more once the server is stopping. -/
def input (c : Connection) (w : Wire) (h : Hub) (notice : Notice) (tick : Nat) : LinkTurn :=
  if c.Idle ∧ notice ≠ .running then .ends (.ok ()) w h
  else if c.buffer.room = 0 then .goesOn (c.makeRoom h) w h
  else if 0 < w.arrived.size then
    let (front, rest) := w.arrived.cut c.buffer.room
    let (c, h) := c.receive h tick front
    .goesOn c { w with arrived := rest } h
  else
    match w.input with
    | .live => .waits
    | .ended => .ends c.inputEnded w h
    | .broken why => .ends (.error (.stream why)) w h

/-- Sends as much of the reply as there is room for. -/
def output (c : Connection) (w : Wire) (h : Hub) : LinkTurn :=
  match w.room with
  | .broken why => .ends (.error (.stream why)) w h
  | .unlimited => .goesOn (c.sent c.reply.length) (w.write c.reply) h
  | .bytes 0 => .waits
  | .bytes n =>
    let leaving := c.reply.take n
    .goesOn (c.sent n) { w.write leaving with room := .bytes (n - leaving.length) } h

/-- What a link does next. -/
def turn (c : Connection) (w : Wire) (h : Hub) (notice : Notice) (m : Moment) : LinkTurn :=
  match c.turn h m with
  | .goesOn c h => .goesOn c w h
  | .ends e h => .ends e w h
  | .needsInput => input c w h notice m.tick
  | .needsOutput => output c w h

/-- What the phase of a connection adds to its effort. -/
def phaseEffort : Phase → Nat
  | .awaitingLength => 0
  | .awaitingBody _ => 3
  | .sending _ => 1

/-- What a reply that is being sent adds to the effort. -/
def replyEffort (reply : Bytes) : Nat := if reply = [] then 0 else 1

theorem replyEffort_le_one (reply : Bytes) : replyEffort reply ≤ 1 := by
  unfold replyEffort
  split <;> omega

/-- What the room on the wire adds to the effort. -/
def roomEffort : Room → Nat
  | .bytes (_ + 1) => 1
  | _ => 0

/-- An upper bound for the number of steps a link can take before it has
to wait. -/
def effort (c : Connection) (w : Wire) : Nat :=
  3 * w.arrived.size + c.buffer.pending.size + (1 - c.buffer.room) + replyEffort c.reply
    + phaseEffort c.phase + roomEffort w.room

/-- **Every step makes the effort smaller**, so a link always comes to wait
or to end. -/
theorem effort_lt_of_turn {c c' : Connection} {w w' : Wire} {h h' : Hub} {notice : Notice}
    {m : Moment} (ht : turn c w h notice m = .goesOn c' w' h') : effort c' w' < effort c w := by
  unfold turn at ht
  split at ht
  · next cg hg hc =>
    injection ht with e1 e2 e3
    subst e1 e2 e3
    unfold Connection.turn at hc
    split at hc
    -- A length is taken: four bytes of the buffer for three of the phase.
    · next hp =>
      split at hc
      · cases hc
      · next word rest hcut =>
        obtain ⟨-, -, hsize, hroom⟩ := ReadBuffer.cut?_eq_some hcut
        unfold Connection.takeLength at hc
        split at hc
        · injection hc with e1 e2
          subst e1
          simp only [effort, hp, phaseEffort, Connection.lengthWidth] at *
          omega
        · cases hc
    -- A body is answered: the phase pays for the reply.
    · next length hp =>
      split at hc
      · cases hc
      · next body rest hcut =>
        obtain ⟨-, -, hsize, hroom⟩ := ReadBuffer.cut?_eq_some hcut
        unfold Connection.takeBody at hc
        split at hc
        · cases hc
        · next r hr =>
          simp only at hc
          split at hc
          · cases hc
          · injection hc with e1 e2
            subst e1
            have := replyEffort_le_one (h.dispatch m.wall r).1.write
            simp only [effort, hp, phaseEffort, ReadBuffer.lend] at *
            omega
    -- The reply is gone, and the phase goes back to the start.
    · next closing hp =>
      split at hc
      · unfold Connection.afterReply at hc
        simp only at hc
        split at hc
        · cases hc
        · injection hc with e1 e2
          subst e1
          simp only [effort, hp, phaseEffort]
          omega
      · cases hc
  · cases ht
  · unfold input at ht
    split at ht
    · cases ht
    · split at ht
      · next hfull =>
        -- A full buffer counts once.
        injection ht with e1 e2 e3
        subst e1 e2
        have := c.buffer.room_makeRoom_pos (c.sharesBuffer h)
        simp only [effort, Connection.makeRoom, ReadBuffer.pending_makeRoom]
        omega
      · split at ht
        · next ha =>
          -- Bytes count three times on the wire and once in the buffer.
          simp only [Connection.receive] at ht
          injection ht with e1 e2 e3
          subst e1 e2
          simp only [effort, ReadBuffer.fill, ByteQueue.size_push, ByteQueue.size_cut,
            ByteQueue.cut_fst, List.length_take, ← ByteQueue.size_eq_length]
          omega
        · split at ht <;> cases ht
  · next hc =>
    have hr : replyEffort c.reply = 1 := if_neg (Connection.reply_ne_nil_of_needsOutput hc)
    unfold output at ht
    split at ht
    · cases ht
    · -- All of the reply leaves.
      injection ht with e1 e2 e3
      subst e1 e2
      simp only [effort, Wire.write, Connection.sent, List.drop_length, hr]
      simp only [replyEffort, if_true]
      omega
    · cases ht
    · next n hn hroom =>
      injection ht with e1 e2 e3
      subst e1 e2
      cases n with
      | zero => exact absurd rfl hn
      | succ n =>
        simp only [effort, Wire.write, Connection.sent, List.length_take, hroom, hr]
        by_cases hle : n + 1 < c.reply.length
        · -- The room is used up.
          have := replyEffort_le_one (c.reply.drop (n + 1))
          have hfull : n + 1 - min (n + 1) c.reply.length = 0 := by omega
          rw [hfull]
          simp only [roomEffort]
          omega
        · have hz : c.reply.drop (n + 1) = [] := List.drop_eq_nil_of_le (by omega)
          rw [hz]
          cases n + 1 - min (n + 1) c.reply.length <;>
            simp only [roomEffort, replyEffort, if_true] <;> omega

/-- Lets a connection go on for at most `steps` steps. -/
def runFor (notice : Notice) (m : Moment) : (steps : Nat) → Connection → Wire → Hub → Link × Hub
  | 0, c, w, h => ({ connection := c, wire := w }, h)
  | steps + 1, c, w, h =>
    match turn c w h notice m with
    | .goesOn c w h => runFor notice m steps c w h
    | .waits => ({ connection := c, wire := w }, h)
    | .ends e w h => ({ connection := c, wire := w, state := .ended e }, h)

/-- Lets a link go on until it has to wait or ends. -/
def run (l : Link) (h : Hub) (notice : Notice) (m : Moment) : Link × Hub :=
  match l.state with
  | .running => runFor notice m (effort l.connection l.wire + 1) l.connection l.wire h
  | _ => (l, h)

/-- Whether the link still runs. -/
def isRunning (l : Link) : Bool :=
  match l.state with
  | .running => true
  | _ => false

/-- Lets a link go on, and takes its client out of the table when it
ends. -/
def serve (l : Link) (h : Hub) (notice : Notice) (m : Moment) : Link × Hub :=
  let (l', h) := l.run h notice m
  if l.isRunning && !l'.isRunning then (l', h.unregister l.connection.client) else (l', h)

/-- Aborts a link that still runs. -/
def abort (l : Link) : Link := if l.isRunning then { l with state := .aborted } else l

/-- Aborts a link that still runs. When the task that serves it has `begun`,
its client leaves the table with that. But what takes the client out is
made in the first turn of the task: when the task is aborted before, while
it stands in the queue, its client stays in the table. -/
def abortServed (begun : Bool) (l : Link) (h : Hub) : Link × Hub :=
  if l.isRunning then
    ({ l with state := .aborted }, if begun then h.unregister l.connection.client else h)
  else (l, h)

/-- Lets bytes arrive. -/
def deliver (l : Link) (bs : Bytes) : Link :=
  { l with wire := { l.wire with arrived := l.wire.arrived.push bs } }

/-- Says how the input goes on. A broken one stays broken. -/
def setInput (l : Link) (input : Input) : Link :=
  match l.wire.input with
  | .broken _ => l
  | _ => { l with wire := { l.wire with input } }

/-- Says how many bytes may leave. A broken stream takes none any more. -/
def setRoom (l : Link) (room : Room) : Link :=
  match l.wire.room with
  | .broken _ => l
  | _ => { l with wire := { l.wire with room } }

end Link

end PrefixCache

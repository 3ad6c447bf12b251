import PrefixCache.Server.Binding
import PrefixCache.Settings.CommandLine
import Std.Async.DNS
import Std.Async.Signal
import Std.Async.TCP
import Std.Async.Timer
import Std.Internal.UV.System
import Std.Sync.Mutex
import Std.Time.DateTime.Timestamp
/-!
# The program

Reads the command line, listens, and lends the server a clock and streams.
What the server does with them is `Server`; here a lock around it, and what
reads, sends and waits.
-/

namespace PrefixCache

namespace Program

open Std.Async

/-- A server under way, and when it began on the clock of the machine. -/
structure Running where
  server : Std.Mutex Server
  began : Nat

/-- The seconds of the calendar. -/
def calendar : IO Int := return (← Std.Time.Timestamp.now).toSecondsSinceUnixEpoch.val

/-- Memory the machine has left, and the most the process has held. -/
def measured : IO (Nat × Nat) := do
  let left ← Std.Internal.UV.System.availableMemory
  let usage ← Std.Internal.UV.System.getrusage
  return (left.toNat, usage.maxRSS.toNat * 1024)

/-- Brings the server up to the present and changes it. -/
def Running.change {α : Type} (r : Running) (f : Server → α × Server) : IO α := do
  let wall ← calendar
  let measured ← measured
  r.server.atomically do
    let s ← get
    let present := (← IO.monoMsNow) - r.began
    let (a, s) := f (Server.elapse { s with wall, measured } (present - s.tick))
    set s
    return a

/-! ## Streams -/

/-- How long a stream is waited for before the server is looked at again. -/
def glance : Std.Time.Millisecond.Offset := 20

/-- Waits for bytes, for the end of the input, or for a glance. -/
def arrival (socket : TCP.Socket.Client) : Async (Link → Link) := do
  try
    Selectable.one #[
      .case (socket.recvSelector 65536) fun
        | some bytes => return (·.deliver bytes.toList)
        | none => return (·.setInput .ended),
      .case (← Selector.sleep glance) fun _ => return id]
  catch e => return (·.setInput (.broken (toString e)))

/-- Carries bytes between a stream and the link of a client while the
client is served. -/
def carry (r : Running) (client : ClientId) (socket : TCP.Socket.Client) : Async Unit := do
  let mut serving := true
  while serving do
    let change ← arrival socket
    let (sent, running) ← r.change fun s =>
      let s := s.onLink client change
      let (sent, s) := s.collect client
      ((sent, s.isServing client), s)
    serving := running
    if sent ≠ [] then
      try socket.send (ByteArray.mk sent.toArray)
      catch e =>
        let broken := fun (l : Link) =>
          (l.setInput (.broken (toString e))).setRoom (.broken (toString e))
        serving ← r.change fun s =>
          let s := (s.onLink client broken).collect client |>.2
          (s.isServing client, s)
  try socket.shutdown catch _ => return

/-- Serves whoever connects until the server is over. A client there is no
place for is turned away. -/
def attend (r : Running) (listener : TCP.Socket.Server) (report : Nat) : Async Unit := do
  let mut serving := true
  let mut reported := 0
  while serving do
    let arrived ← Selectable.one #[
      .case listener.acceptSelector fun socket => return some socket,
      .case (← Selector.sleep glance) fun _ => return none]
    match arrived with
    | none => pure ()
    | some socket =>
      match ← r.change fun s => if s.stage = .serving then s.accept "tcp" else (none, s) with
      | none => try socket.shutdown catch _ => pure ()
      | some client => background (carry r client socket)
    let (stage, tick, line) ← r.change fun s => ((s.stage, s.tick, s.hub.summary), s)
    serving := stage != .over
    if report ≤ tick - reported then
      IO.println line
      reported := tick

/-! ## Beginning and ending -/

/-- Listens at an address. -/
def listen (address : String) (port : Nat) : Async TCP.Socket.Server := do
  let found ← DNS.getAddrInfo address (toString port)
  match found[0]? with
  | none => throw (IO.userError "no such address")
  | some ip =>
    let listener ← TCP.Socket.Server.mk
    listener.noDelay
    listener.bind (match ip with
      | .v4 a => .v4 ⟨a, port.toUInt16⟩
      | .v6 a => .v6 ⟨a, port.toUInt16⟩)
    listener.listen 1024
    return listener

/-- Whether the number of this process can be written to a file. -/
def noteProcess (path : String) : IO Bool := do
  try
    IO.FS.writeFile path s!"{← Std.Internal.UV.System.osGetPid}\n"
    return true
  catch _ => return false

/-- Runs a server with the given settings. It has no unix socket: one that
is asked for cannot be made. -/
def serve (c : Settings) : IO UInt32 := do
  let (left, held) ← measured
  let c := { c with maxMemory := Report.affordable c.maxMemory left }
  let listener ← try some <$> (listen c.address c.port).block catch _ => pure none
  let noted ← match listener, c.unixSocket, c.pidFile with
    | some _, none, some path => noteProcess path
    | _, _, _ => pure false
  let host : Host :=
    { canListen := fun _ => listener.isSome
      canClear := fun _ => true
      canCreate := fun _ => noted
      canOpenSocket := fun _ => false }
  match c.bind host, listener with
  | .error e, _ => IO.eprintln e.message; return 1
  | .ok (), none => return 1
  | .ok (), some listener =>
    let r : Running :=
      { server := ← Std.Mutex.new (Server.start c (← calendar) (left, held))
        began := ← IO.monoMsNow }
    IO.println s!"Listening on {c.bindAddress}"
    for signal in [Signal.sigint, Signal.sigterm] do
      let raised ← (← Signal.Waiter.mk signal false).wait
      discard <| raised.mapIO fun _ => r.change fun s => ((), s.raiseStop)
    (attend r listener (Server.period c.statsPeriod)).block
    if let some path := c.pidFile then IO.FS.removeFile path
    return 0

/-- Reads the files that are named. -/
def textOf (path : String) : IO (Option String) := do
  try return some (← IO.FS.readFile path) catch _ => return none

/-- Does what a command line says. -/
def run (words : List String) : IO UInt32 := do
  match Arguments.ofWords words with
  | .error .help => IO.print Arguments.usage; return 0
  | .error .version => IO.println s!"prefixcache {version}"; return 0
  | .error e => IO.eprintln e.message; return 2
  | .ok a =>
    let text ← match a.config with
      | some path => textOf path
      | none => pure none
    match a.settings fun _ => text with
    | .error e => IO.eprintln e.message; return 1
    | .ok c => serve c

end Program

end PrefixCache

/-- Runs the server the command line describes. -/
def main (words : List String) : IO UInt32 := PrefixCache.Program.run words

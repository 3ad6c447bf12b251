import PrefixCache.Reply.Statistics
import PrefixCache.Request.Command
import PrefixCache.Store
/-!
# Answering requests

Every request that has an opcode is counted and answered. A refusal, by
the fields or by the store, is an answer too.
-/

namespace PrefixCache

/-- The answer to an operation that the store refuses. -/
def StoreError.reply : StoreError → Reply
  | notFound => .code .notFound
  | notANumber => .code .notANumber
  | outOfMemory => .code .outOfMemory
  | locked => .code .locked
  | corrupt => .code .error

/-- The answer to a request whose fields are refused. -/
def Refusal.reply : Refusal → Reply
  | fields _ => .code .error
  | notANumber => .code .notANumber

/-- The answer to an operation, made from its result. -/
def Outcome.reply {β : Type} (make : β → Reply) : Outcome β → Reply × Store
  | (.ok b, s) => (make b, s)
  | (.error e, s) => (e.reply, s)

/-- Keys as pairs: each under its place in the row. -/
def Reply.numbered (keys : List Bytes) : Reply :=
  .pairs (keys.mapIdx fun i key => (Bytes.ofText (toString i), .plain key))

namespace Command

/-- Carries a command out. -/
def run (s : Store) : Command → Reply × Store
  | set key value seconds => (s.set key value seconds.toInt).reply .value
  | ttl key seconds => (s.setTtl key seconds.toInt).reply fun _ => .code .ok
  | get key => (s.get key).reply .value
  | del key => (s.del key).reply fun _ => .code .ok
  | add key delta => (s.add key delta).reply .number
  | lock key seconds => (s.lock key seconds.toInt).reply fun _ => .code .ok
  | unlock key => (s.unlock key).reply fun _ => .code .ok
  | ask key a => (s.ask key a).reply fun n => .number (Int64.ofInt n)
  | allSet stem value => (s.setAll stem value).reply .affected
  | allTtl stem seconds => (s.setTtlAll stem seconds.toInt).reply .affected
  | allGet stem => (s.getAll stem).reply .pairs
  | allDel stem => (s.delAll stem).reply .affected
  | allAdd stem delta => (s.addAll stem delta).reply .affected
  | allLock stem seconds => (s.lockAll stem seconds.toInt).reply .affected
  | allUnlock stem => (s.unlockAll stem).reply .affected
  | count stem => (s.count stem).reply .affected
  | keys stem => (s.keys stem).reply .numbered
  | stats => (.statistics s, s)
  | ping => (.code .ok, s)
  | finish => (.code .ok, s)

end Command

namespace Store

/-- Counts a request. -/
def countRequest (s : Store) : Store :=
  { s with counters := { s.counters with requests := s.counters.requests + 1 } }

/-- Answers a request. -/
def dispatch (s : Store) (limits : FieldLimits) (r : Request) : Reply × Store :=
  match Command.ofRequest limits r with
  | .ok command => command.run s.countRequest
  | .error refusal => (refusal.reply, s.countRequest)

/-- Answers a request body, or says why it is none. -/
def execute (s : Store) (limits : FieldLimits) (body : Bytes) : Except BodyError Reply × Store :=
  match Request.ofBody body with
  | .error e => (.error e, s)
  | .ok r =>
    let (reply, s) := s.dispatch limits r
    (.ok reply, s)

end Store

end PrefixCache

import PrefixCache.Connection.ReadBuffer
import PrefixCache.Reply.Encoding
import PrefixCache.Server.Lending
/-!
# A connection

A connection waits for a length, then for a body of that length, answers
it, and sends the answer. `turn` says what it does next on its own, or
that it has to wait for input or output; what arrives and what leaves is
fed to it by `receive`, `inputEnded` and `sent`. It never takes more than
its buffer has room for, and `makeRoom` gives it room again.

A body that is no request, a length out of bounds and a reply out of
bounds end the connection without a reply.
-/

namespace PrefixCache

/-- How large requests and replies may be. -/
structure ConnectionLimits where
  maxRequest : Nat := 4 * 1024 * 1024
  maxResponse : Nat := 4 * 1024 * 1024
  deriving Repr, DecidableEq

/-- The limits that settings give to connections. -/
def Settings.connectionLimits (c : Settings) : ConnectionLimits :=
  { maxRequest := c.maxRequest, maxResponse := c.maxResponse }

/-- Why a connection breaks. -/
inductive ConnectionError where
  /-- The stream fails. -/
  | stream (why : String)
  /-- A request has a length that is out of bounds. -/
  | badLength (length : Int) (most : Nat)
  /-- A body is no request. -/
  | badBody (error : BodyError)
  /-- A reply is out of bounds. -/
  | replyTooLarge (length most : Nat)
  /-- The stream ends within a request. -/
  | unexpectedEnd
  deriving Repr, DecidableEq

/-- The wording of a connection error. -/
def ConnectionError.message : ConnectionError → String
  | stream why => s!"I/O error: {why}"
  | badLength length most => s!"request length {length} outside 2..={most}"
  | badBody error => "dropping request: " ++ error.message
  | replyTooLarge length most => s!"reply of {length} bytes exceeds the {most} byte limit"
  | unexpectedEnd => "Unexpected end of stream"

/-- Where a connection is between two requests. -/
inductive Phase where
  | awaitingLength
  | awaitingBody (length : Nat)
  /-- A reply is being sent, after which the connection may close. -/
  | sending (closing : Bool)
  deriving Repr, DecidableEq

/-- A connection: its client, what it has read, and the bytes of a reply
that are not sent yet. -/
structure Connection where
  client : ClientId
  limits : ConnectionLimits
  phase : Phase := .awaitingLength
  buffer : ReadBuffer := {}
  reply : Bytes := []
  deriving Repr, DecidableEq

/-- How a connection ends. -/
abbrev Ending := Except ConnectionError Unit

/-- What a connection does next. -/
inductive Turn where
  | goesOn (c : Connection) (h : Hub)
  | needsInput
  | needsOutput
  | ends (e : Ending) (h : Hub)

namespace Connection

/-- The bytes of the length before a request. -/
def lengthWidth : Nat := 4

/-- The shortest request: an opcode alone. -/
def shortestRequest : Nat := 2

/-- Nothing of a request has arrived. -/
def Idle (c : Connection) : Prop := c.phase = .awaitingLength ∧ c.buffer.pending.size = 0

instance (c : Connection) : Decidable c.Idle := inferInstanceAs (Decidable (_ ∧ _))

/-- The length is within bounds. The upper one is compared as a signed
64-bit number. -/
def LengthAllowed (c : Connection) (length : Int) : Prop :=
  shortestRequest ≤ length ∧ length ≤ signed64 c.limits.maxRequest

instance (c : Connection) (length : Int) : Decidable (c.LengthAllowed length) :=
  inferInstanceAs (Decidable (_ ∧ _))

/-- Takes the length of the next request; `rest` is what follows it. -/
def takeLength (c : Connection) (h : Hub) (length : Int) (rest : ReadBuffer) : Turn :=
  if c.LengthAllowed length then
    .goesOn { c with phase := .awaitingBody length.toNat, buffer := rest } h
  else .ends (.error (.badLength length c.limits.maxRequest)) h

/-- Answers a request body; `rest` is what follows it. -/
def takeBody (c : Connection) (h : Hub) (wall : Int) (body : Bytes) (rest : ReadBuffer) : Turn :=
  match Request.ofBody body with
  | .error e => .ends (.error (.badBody e)) h
  | .ok r =>
    let (reply, h) := h.dispatch wall r
    let keys := h.keysWritten r reply
    let h := h.lend { client := c.client, number := rest.number } keys
    let length := reply.encodedLength
    if c.limits.maxResponse < length then
      .ends (.error (.replyTooLarge length c.limits.maxResponse)) h
    else
      .goesOn { c with
        phase := .sending (r.opcode == .finish), buffer := rest.lend keys, reply := reply.write } h

/-- Goes on after a reply has been sent. -/
def afterReply (c : Connection) (h : Hub) (tick : Nat) (closing : Bool) : Turn :=
  let h := h.touch c.client tick
  if closing then .ends (.ok ()) h else .goesOn { c with phase := .awaitingLength } h

/-- What the connection does next. -/
def turn (c : Connection) (h : Hub) (m : Moment) : Turn :=
  match c.phase with
  | .awaitingLength =>
    match c.buffer.cut? lengthWidth with
    | none => .needsInput
    | some (word, rest) => c.takeLength h (Bytes.signedValue lengthWidth word) rest
  | .awaitingBody length =>
    match c.buffer.cut? length with
    | none => .needsInput
    | some (body, rest) => c.takeBody h m.wall body rest
  | .sending closing => if c.reply = [] then c.afterReply h m.tick closing else .needsOutput

/-- A connection waits for output only while there is something to
send. -/
theorem reply_ne_nil_of_needsOutput {c : Connection} {h : Hub} {m : Moment}
    (ht : c.turn h m = .needsOutput) : c.reply ≠ [] := by
  unfold turn at ht
  split at ht
  · split at ht
    · cases ht
    · unfold takeLength at ht
      split at ht <;> cases ht
  · split at ht
    · cases ht
    · unfold takeBody at ht
      split at ht
      · cases ht
      · simp only at ht
        split at ht <;> cases ht
  · split at ht
    · unfold afterReply at ht
      simp only at ht
      split at ht <;> cases ht
    · next hr => exact hr

/-- Stored values still share bytes with the buffer. -/
def sharesBuffer (c : Connection) (h : Hub) : Bool :=
  c.buffer.lent.any fun key => h.borrows key { client := c.client, number := c.buffer.number }

/-- Makes room for bytes that arrive. -/
def makeRoom (c : Connection) (h : Hub) : Connection :=
  { c with buffer := c.buffer.makeRoom (c.sharesBuffer h) }

/-- Takes bytes that have arrived. -/
def receive (c : Connection) (h : Hub) (tick : Nat) (bs : Bytes) : Connection × Hub :=
  ({ c with buffer := c.buffer.fill bs }, h.touch c.client tick)

/-- How the connection ends when no more input comes. Within a length that
is no fault. -/
def inputEnded (c : Connection) : Ending :=
  match c.phase with
  | .awaitingBody _ => .error .unexpectedEnd
  | _ => .ok ()

/-- Forgets the first `n` bytes of the reply, which have left. -/
def sent (c : Connection) (n : Nat) : Connection := { c with reply := c.reply.drop n }

end Connection

end PrefixCache

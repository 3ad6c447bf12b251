import PrefixCache.Request.Opcode
import PrefixCache.Request.Fields
/-!
# Commands

A request body is an opcode and a payload; a command is what they mean
together. A body without a known opcode breaks the connection
(`BodyError`), a payload without the right fields is only refused
(`Refusal`). Neither depends on what is stored.
-/

namespace PrefixCache

/-- An opcode and its payload. -/
structure Request where
  opcode : Opcode
  payload : Bytes
  deriving Repr, DecidableEq

/-- Why a body is no request. -/
inductive BodyError where
  | truncated (length : Nat)
  | unknownOpcode (code : Nat)
  deriving Repr, DecidableEq

/-- The wording of a body error. -/
def BodyError.message : BodyError → String
  | truncated length => s!"request of {length} bytes is too short to hold an opcode"
  | unknownOpcode code => s!"unknown opcode {code}"

/-- Reads a request body. -/
def Request.ofBody (body : Bytes) : Except BodyError Request :=
  match Bytes.cut? 2 body with
  | none => .error (.truncated body.length)
  | some (word, payload) =>
    match Opcode.ofCode? (Bytes.value word) with
    | none => .error (.unknownOpcode (Bytes.value word))
    | some opcode => .ok { opcode, payload }

/-- What a request asks for, fields included. -/
inductive Command where
  | set (key value : Bytes) (ttl : Int64)
  | ttl (key : Bytes) (seconds : Int64)
  | get (key : Bytes)
  | del (key : Bytes)
  | add (key : Bytes) (delta : Int64)
  | lock (key : Bytes) (seconds : Int64)
  | unlock (key : Bytes)
  | ask (key : Bytes) (about : Attribute)
  | allSet (stem value : Bytes)
  | allTtl (stem : Bytes) (seconds : Int64)
  | allGet (stem : Bytes)
  | allDel (stem : Bytes)
  | allAdd (stem : Bytes) (delta : Int64)
  | allLock (stem : Bytes) (seconds : Int64)
  | allUnlock (stem : Bytes)
  | count (stem : Bytes)
  | keys (stem : Bytes)
  | stats
  | ping
  | finish
  deriving Repr, DecidableEq

/-- Why a request is refused before the store is asked. -/
inductive Refusal where
  | fields (error : FieldError)
  | notANumber
  deriving Repr, DecidableEq

namespace Command

/-- Reads a key alone. -/
def withKey (limits : FieldLimits) (payload : Bytes) (make : Bytes → Command) :
    Except Refusal Command :=
  match limits.key payload with
  | .error e => .error (.fields e)
  | .ok key => .ok (make key)

/-- Reads a key and a number. -/
def withNumber (limits : FieldLimits) (payload : Bytes) (field : String)
    (make : Bytes → Int64 → Command) : Except Refusal Command :=
  match limits.keyAndField payload field with
  | .error e => .error (.fields e)
  | .ok (key, digits) =>
    match Value.integer? digits with
    | none => .error .notANumber
    | some n => .ok (make key n)

/-- Reads a key and the name of an attribute. -/
def withAttribute (limits : FieldLimits) (payload : Bytes) : Except Refusal Command :=
  match limits.keyAndField payload "field" with
  | .error e => .error (.fields e)
  | .ok (key, name) =>
    match Attribute.ofField? name with
    | none => .error (.fields (.missing "field"))
    | some a => .ok (.ask key a)

/-- The command of a request. -/
def ofRequest (limits : FieldLimits) (r : Request) : Except Refusal Command :=
  match r.opcode with
  | .set =>
    match limits.ttlKeyValue r.payload with
    | .error e => .error (.fields e)
    | .ok (seconds, key, value) => .ok (.set key value seconds)
  | .ttl => withNumber limits r.payload "ttl" .ttl
  | .get => withKey limits r.payload .get
  | .del => withKey limits r.payload .del
  | .inc => withKey limits r.payload (.add · 1)
  | .dec => withKey limits r.payload (.add · (-1))
  | .lock => withNumber limits r.payload "seconds" .lock
  | .unlock => withKey limits r.payload .unlock
  | .ask => withAttribute limits r.payload
  | .allSet =>
    match limits.keyAndValue r.payload with
    | .error e => .error (.fields e)
    | .ok (stem, value) => .ok (.allSet stem value)
  | .allTtl => withNumber limits r.payload "ttl" .allTtl
  | .allGet => withKey limits r.payload .allGet
  | .allDel => withKey limits r.payload .allDel
  | .allInc => withKey limits r.payload (.allAdd · 1)
  | .allDec => withKey limits r.payload (.allAdd · (-1))
  | .allLock => withNumber limits r.payload "seconds" .allLock
  | .allUnlock => withKey limits r.payload .allUnlock
  | .count => withKey limits r.payload .count
  | .keys => withKey limits r.payload .keys
  | .stats => .ok .stats
  | .ping => .ok .ping
  | .finish => .ok .finish

end Command

end PrefixCache

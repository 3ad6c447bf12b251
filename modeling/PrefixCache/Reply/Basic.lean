import PrefixCache.Item
import PrefixCache.Text.Lossy
/-!
# Replies

A reply is a bare status, one value, or a row of keys with their values.
-/

namespace PrefixCache

/-- The status of a reply. -/
inductive Status where
  | error
  | notFound
  | notANumber
  | outOfMemory
  | locked
  | ok
  | value
  | pairs
  deriving Repr, DecidableEq

namespace Status

/-- The number of a status. -/
def code : Status → Nat
  | error => 0
  | notFound => 1
  | notANumber => 2
  | outOfMemory => 3
  | locked => 4
  | ok => 5
  | value => 6
  | pairs => 7

/-- The word for a status. -/
def word : Status → String
  | error => "Err"
  | notFound => "NotFound"
  | notANumber => "Nan"
  | outOfMemory => "Mem"
  | locked => "Locked"
  | ok => "Ok"
  | value => "Val"
  | pairs => "KVal"

/-- All statuses. -/
def all : List Status := [error, notFound, notANumber, outOfMemory, locked, ok, value, pairs]

/-- The status with a number. -/
def ofCode? (n : Nat) : Option Status := all.find? fun s => s.code == n

end Status

/-- A reply. -/
inductive Reply where
  /-- A bare status. -/
  | code (status : Status)
  /-- One value. -/
  | value (v : Value)
  /-- Keys and values, in order. -/
  | pairs (ps : List (Bytes × Value))
  deriving Repr, DecidableEq

namespace Reply

/-- A number as a reply. -/
def number (n : Int64) : Reply := .value (.number n)

/-- How many items were affected. -/
def affected (n : Nat) : Reply := number (Int64.ofNat n)

/-- The status a reply carries. -/
def status : Reply → Status
  | code s => s
  | value _ => .value
  | pairs _ => .pairs

/-- A reply as it is shown to people. -/
def text : Reply → String
  | code s => s.word
  | value (.number n) => "(number) " ++ toString n.toInt
  | value (.plain data) => "\"" ++ Text.lossy data ++ "\""
  | value (.compressed data) => "\"" ++ Text.lossy data ++ "\""
  | pairs ps => s!"({ps.length} pairs)"

end Reply

end PrefixCache

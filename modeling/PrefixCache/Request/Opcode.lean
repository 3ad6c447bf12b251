/-!
# Opcodes

Every request begins with a number that says what it asks for. No two
opcodes share a number, so reading a number back gives the opcode again
(`ofCode?_code`).
-/

namespace PrefixCache

/-- What a request asks for. The names that begin with `all` are for every
key with a given stem. -/
inductive Opcode where
  | set
  | ttl
  | get
  | del
  | inc
  | dec
  | lock
  | unlock
  | allSet
  | allTtl
  | allGet
  | allDel
  | allInc
  | allDec
  | allLock
  | allUnlock
  | count
  | stats
  | ping
  | ask
  | keys
  | finish
  deriving Repr, DecidableEq

namespace Opcode

/-- All opcodes. -/
def all : List Opcode :=
  [set, ttl, get, del, inc, dec, lock, unlock, allSet, allTtl, allGet, allDel, allInc, allDec,
   allLock, allUnlock, count, stats, ping, ask, keys, finish]

/-- The number of an opcode in a request. -/
def code : Opcode → Nat
  | set => 1
  | ttl => 2
  | get => 3
  | del => 4
  | inc => 5
  | dec => 6
  | lock => 7
  | unlock => 8
  | allSet => 9
  | allTtl => 10
  | allGet => 11
  | allDel => 12
  | allInc => 13
  | allDec => 14
  | allLock => 15
  | allUnlock => 16
  | count => 17
  | stats => 18
  | ping => 19
  | ask => 20
  | keys => 21
  | finish => 255

/-- The word for an opcode. -/
def word : Opcode → String
  | set => "SET"
  | ttl => "TTL"
  | get => "GET"
  | del => "DEL"
  | inc => "INC"
  | dec => "DEC"
  | lock => "LOCK"
  | unlock => "UNLOCK"
  | allSet => "MSET"
  | allTtl => "MTTL"
  | allGet => "MGET"
  | allDel => "MDEL"
  | allInc => "MINC"
  | allDec => "MDEC"
  | allLock => "MLOCK"
  | allUnlock => "MUNLOCK"
  | count => "COUNT"
  | stats => "STATS"
  | ping => "PING"
  | ask => "META"
  | keys => "KEYS"
  | finish => "END"

/-- The opcode with a number. -/
def ofCode? (n : Nat) : Option Opcode := all.find? fun op => op.code == n

/-- **No two opcodes share a number.** -/
theorem ofCode?_code (op : Opcode) : ofCode? op.code = some op := by
  cases op <;> decide

/-- An opcode that is read has the number it is read from. -/
theorem code_of_ofCode? {n : Nat} {op : Opcode} (h : ofCode? n = some op) :
    op.code = n := by
  simpa using List.find?_some h

end Opcode

end PrefixCache

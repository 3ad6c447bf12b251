import PrefixCache.Store.Action
/-!
# Operations on all keys with a stem

The members are the keys that hold an item when the operation begins.
Lapsed members are destroyed and passed over. A stem without members is
not found; one whose members have all lapsed is found, and empty.
-/

namespace PrefixCache

namespace Store

/-- Replaces the value of every unlocked member. -/
def setAll (s : Store) (stem data : Bytes) : Outcome Nat :=
  if s.OverBudget then (.error .outOfMemory, s)
  else s.countOnStem stem (.replace data.length (s.encode data))

/-- Starts a new time to live for every unlocked member. -/
def setTtlAll (s : Store) (stem : Bytes) (ttl : Int) : Outcome Nat :=
  s.countOnStem stem (.live ttl)

/-- Reads every member that can be restored. -/
def getAll (s : Store) (stem : Bytes) : Outcome (List (Bytes × Value)) := s.onStem stem .read

/-- Removes every unlocked member. -/
def delAll (s : Store) (stem : Bytes) : Outcome Nat := s.countOnStem stem .delete

/-- Adds to every unlocked member that is a number. -/
def addAll (s : Store) (stem : Bytes) (delta : Int64) : Outcome Nat :=
  s.countOnStem stem (.add delta)

/-- Locks every unlocked member. -/
def lockAll (s : Store) (stem : Bytes) (seconds : Int) : Outcome Nat :=
  s.countOnStem stem (.lock seconds)

/-- Takes the lock off every member. -/
def unlockAll (s : Store) (stem : Bytes) : Outcome Nat := s.countOnStem stem .unlock

/-- Counts the members. -/
def count (s : Store) (stem : Bytes) : Outcome Nat := s.countOnStem stem .keep

/-- Lists the keys of the members. -/
def keys (s : Store) (stem : Bytes) : Outcome (List Bytes) :=
  let (given, s) := s.onStem stem .keep
  (given.map fun pairs => pairs.map Prod.fst, s)

end Store

end PrefixCache

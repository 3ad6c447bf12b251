import PrefixCache.Store.Action
/-!
# Operations on one key

Every operation on a key first destroys the item there if it has lapsed,
and then sees the key as if it held nothing.
-/

namespace PrefixCache

namespace Store

/-- Brings a value in under a key that may be written. -/
def put (s : Store) (key data : Bytes) (ttl : Int) : Store :=
  let value := s.encode data
  -- The new item is counted before the old one goes, so the peak sees both.
  let (item, s) := (s.countCompression data.length value).create value ttl
  s.insert key item

/-- Stores bytes under a key, and gives them back as they will be read. -/
def set (s : Store) (key data : Bytes) (ttl : Int) : Outcome Value :=
  if s.OverBudget then (.error .outOfMemory, s)
  else
    match s.liveKey key with
    | (none, s) => (.ok (.plain data), s.put key data ttl)
    | (some (_, item), s) =>
      if item.Locked s.now then (.error .locked, s)
      else (.ok (.plain data), s.put key data ttl)

/-- Reads a key. -/
def get (s : Store) (key : Bytes) : Outcome Value := s.onKey key .read

/-- Removes a key. -/
def del (s : Store) (key : Bytes) : Outcome Unit := s.onKey key .delete

/-- Starts a new time to live. -/
def setTtl (s : Store) (key : Bytes) (ttl : Int) : Outcome Unit := s.onKey key (.live ttl)

/-- Locks a key for some seconds, for good when there are fewer than
none. -/
def lock (s : Store) (key : Bytes) (seconds : Int) : Outcome Unit := s.onKey key (.lock seconds)

/-- Takes the lock off a key. -/
def unlock (s : Store) (key : Bytes) : Outcome Unit := s.onKey key .unlock

/-- Reads an attribute of the item of a key. -/
def ask (s : Store) (key : Bytes) (a : Attribute) : Outcome Int := s.onKey key (.ask a)

/-- Adds to the number of a key. A key without an item starts from
nothing. -/
def add (s : Store) (key : Bytes) (delta : Int64) : Outcome Int64 :=
  match s.liveKey key with
  | (some (id, item), s) => Action.add delta id item s
  | (none, s) =>
    let (item, s) := s.create (.number delta) (-1)
    (.ok delta, s.insert key item)

end Store

end PrefixCache

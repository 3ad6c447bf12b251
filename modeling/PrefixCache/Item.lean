import PrefixCache.Bytes
import PrefixCache.Decimal.Reading
/-!
# Items

An item is a stored value with its times, its time to live and its lock.
Both the time to live and a timed lock count from `touchedAt`; a lock wins
over the time to live, so a locked item never lapses
(`not_lapsed_of_locked`).

Times are whole seconds since the Unix epoch, in signed words of 64 bits,
and so are the differences that are taken of them. Two times since the
epoch have a difference that fits. But a store may be set to any time, and
a difference of `2 ^ 63` seconds or more wraps (a build that checks its
arithmetic stops there instead). An item is `InRange` when none of its
differences does; then they are the ones of the integers.
-/

namespace PrefixCache

/-- How a value is kept. -/
inductive Encoding where
  | plain
  | compressed
  | number
  deriving Repr, DecidableEq

/-- The number that stands for an encoding in replies. -/
def Encoding.tag : Encoding → Nat
  | plain => 0
  | compressed => 1
  | number => 2

/-- A value as it is kept. -/
inductive Value where
  /-- The bytes a client sent. -/
  | plain (data : Bytes)
  /-- The compressed form of such bytes. -/
  | compressed (packed : Bytes)
  /-- A counter. -/
  | number (n : Int64)
  deriving Repr, DecidableEq

namespace Value

/-- How the value is kept. -/
def encoding : Value → Encoding
  | plain _ => .plain
  | compressed _ => .compressed
  | number _ => .number

/-- How many bytes the value counts for. -/
def size : Value → Nat
  | plain data => data.length
  | compressed packed => packed.length
  | number _ => 8

/-- Reads a whole field as an integer. -/
def integer? (field : Bytes) : Option Int64 := Decimal.int64? (field.map Char.ofUInt8)

/-- The value as a number: counters are numbers, and so are plain values
that spell one. -/
def asNumber? : Value → Option Int64
  | number n => some n
  | plain data => integer? data
  | compressed _ => none

end Value

/-- A stored item. Times are seconds since the Unix epoch. -/
structure Item where
  value : Value
  createdAt : Int
  /-- Where the time to live and a timed lock count from. -/
  touchedAt : Int
  lastAccess : Int
  /-- Seconds to live; no positive number means for ever. -/
  ttl : Int
  /-- Zero when unlocked, `-1` when locked for good, otherwise the seconds
  the lock holds. -/
  lock : Int
  deriving Repr, DecidableEq

namespace Item

/-- What every item costs beyond the bytes of its value. -/
def overhead : Nat := 80

/-- The lock that holds until it is taken off. -/
def permanentLock : Int := -1

/-- A new item. -/
def create (value : Value) (ttl now : Int) : Item :=
  { value, createdAt := now, touchedAt := now, lastAccess := now, ttl, lock := 0 }

/-- The bytes of the value. -/
def size (i : Item) : Nat := i.value.size

/-- The bytes the item counts for. -/
def footprint (i : Item) : Nat := i.size + overhead

/-- The seconds since the windows began, in a signed word. -/
def age (i : Item) (now : Int) : Int := wrap64 (now - i.touchedAt)

/-- The seconds since the item was last used, in a signed word. -/
def idle (i : Item) (now : Int) : Int := wrap64 (now - i.lastAccess)

/-- Writing and deleting are refused. -/
def Locked (i : Item) (now : Int) : Prop :=
  i.lock = permanentLock ∨ (0 < i.lock ∧ i.age now < i.lock)

instance (i : Item) (now : Int) : Decidable (i.Locked now) :=
  inferInstanceAs (Decidable (_ ∨ _))

/-- The time to live is over, whether the item is locked or not. -/
def Elapsed (i : Item) (now : Int) : Prop := 0 < i.ttl ∧ i.ttl ≤ i.age now

instance (i : Item) (now : Int) : Decidable (i.Elapsed now) :=
  inferInstanceAs (Decidable (_ ∧ _))

/-- The item is gone: its time is over and no lock holds it. -/
def Lapsed (i : Item) (now : Int) : Prop := i.Elapsed now ∧ ¬ i.Locked now

instance (i : Item) (now : Int) : Decidable (i.Lapsed now) :=
  inferInstanceAs (Decidable (_ ∧ _))

/-- The seconds left to live, `-1` for an item that lives for ever. -/
def left (i : Item) (now : Int) : Int :=
  if i.ttl ≤ 0 then -1 else max (wrap64 (i.ttl - i.age now)) 0

/-- The item after a read or write. -/
def touch (i : Item) (now : Int) : Item := { i with lastAccess := now }

/-- The item with its windows counting from now. -/
def restart (i : Item) (now : Int) : Item := { i with touchedAt := now, lastAccess := now }

/-- The differences that are taken to find out how old the item is, what it
has left and how long it was not used fit in 64 bits. -/
structure InRange (item : Item) (now : Int) : Prop where
  age : FitsInt64 (now - item.touchedAt)
  left : 0 < item.ttl → FitsInt64 (item.ttl - (now - item.touchedAt))
  idle : FitsInt64 (now - item.lastAccess)

theorem age_of_fits {i : Item} {now : Int} (h : FitsInt64 (now - i.touchedAt)) :
    i.age now = now - i.touchedAt :=
  wrap64_of_fits h

theorem idle_of_fits {i : Item} {now : Int} (h : FitsInt64 (now - i.lastAccess)) :
    i.idle now = now - i.lastAccess :=
  wrap64_of_fits h

/-- In range, what is left is the difference of the integers. -/
theorem InRange.left_eq {i : Item} {now : Int} (h : i.InRange now) (hpos : 0 < i.ttl) :
    i.left now = max (i.ttl - (now - i.touchedAt)) 0 := by
  rw [Item.left, if_neg (Int.not_le.2 hpos), age_of_fits h.age, wrap64_of_fits (h.left hpos)]

/-- **A lock wins over the time to live.** -/
theorem not_lapsed_of_locked {i : Item} {now : Int} (h : i.Locked now) : ¬ i.Lapsed now :=
  fun hl => hl.2 h

end Item

/-- The attributes of an item that can be asked for. -/
inductive Attribute where
  | size
  | encoding
  | access
  | created
  | ttl
  | left
  | lock
  deriving Repr, DecidableEq

namespace Attribute

/-- All attributes. -/
def all : List Attribute := [size, encoding, access, created, ttl, left, lock]

/-- The word for an attribute in a request. -/
def word : Attribute → String
  | size => "size"
  | encoding => "encoding"
  | access => "access"
  | created => "created"
  | ttl => "ttl"
  | left => "left"
  | lock => "lock"

/-- The attribute a field names. -/
def ofField? (field : Bytes) : Option Attribute :=
  all.find? fun a => Bytes.ofText a.word == field

/-- The attribute of an item. -/
def of (a : Attribute) (i : Item) (now : Int) : Int :=
  match a with
  | size => signed64 i.size
  | encoding => i.value.encoding.tag
  | access => i.lastAccess
  | created => i.createdAt
  | ttl => i.ttl
  | left => i.left now
  | lock => i.lock

end Attribute

end PrefixCache

import PrefixCache.Item
/-!
# Counters

The store counts what it holds and what it has done. The item counters
and the memory figure change through `created`, `destroyed` and `resized`
only.
-/

namespace PrefixCache

/-- What is counted. Times are seconds, zero when nothing was seen. -/
structure Counters where
  started : Int
  firstInsertion : Int := 0
  lastInsertion : Int := 0
  items : Nat := 0
  compressedItems : Nat := 0
  /-- Clients connected now. -/
  clients : Nat := 0
  cronRuns : Nat := 0
  connections : Nat := 0
  requests : Nat := 0
  /-- The footprints of all items together. -/
  memoryUsed : Nat := 0
  memoryPeak : Nat := 0
  /-- Values stored in compressed form. -/
  compressions : Nat := 0
  /-- The percentages that compression saved, added up. -/
  savedPercent : Float := 0
  /-- Memory the machine has left. -/
  available : Nat := 0
  /-- Memory the process holds, zero when unknown. -/
  resident : Nat := 0

namespace Counters

/-- What a value adds to the number of compressed items. -/
def compressedWeight (v : Value) : Nat := if v.encoding = .compressed then 1 else 0

/-- Counts an item that has come in. -/
def created (c : Counters) (item : Item) (now : Int) : Counters :=
  let used := c.memoryUsed + item.footprint
  { c with
    items := c.items + 1
    compressedItems := c.compressedItems + compressedWeight item.value
    memoryUsed := used
    memoryPeak := max c.memoryPeak used
    firstInsertion := if c.firstInsertion = 0 then now else c.firstInsertion
    lastInsertion := now }

/-- Counts an item that has gone. -/
def destroyed (c : Counters) (item : Item) : Counters :=
  { c with
    items := c.items - 1
    compressedItems := c.compressedItems - compressedWeight item.value
    memoryUsed := c.memoryUsed - item.footprint }

/-- Counts a value that has changed its size in place. -/
def resized (c : Counters) (oldSize newSize : Nat) : Counters :=
  let used := c.memoryUsed + newSize - oldSize
  { c with memoryUsed := used, memoryPeak := max c.memoryPeak used }

/-- A natural number as a double. -/
def toDouble (n : Nat) : Float := n.toUInt64.toFloat

/-- Counts a value of `full` bytes that is kept in `packed`. -/
def compressed (c : Counters) (full packed : Nat) : Counters :=
  if full = 0 then c
  else
    { c with
      compressions := c.compressions + 1
      savedPercent := c.savedPercent + 100 * (1 - toDouble packed / toDouble full) }

/-! ## Averages -/

/-- A quotient, zero when there is nothing to divide by. -/
def ratio (num : Float) (den : Nat) : Float := if den = 0 then 0 else num / toDouble den

/-- Memory held by the process for each byte accounted for. -/
def fragmentation (c : Counters) : Float :=
  if c.resident = 0 then 0 else ratio (toDouble c.resident) c.memoryUsed

/-- The mean footprint of an item. -/
def averageSize (c : Counters) : Float := ratio (toDouble c.memoryUsed) c.items

/-- The mean percentage saved by compression. -/
def averageSaving (c : Counters) : Float := ratio c.savedPercent c.compressions

/-- The mean number of requests of a connection. -/
def averageRequests (c : Counters) : Float := ratio (toDouble c.requests) c.connections

end Counters

end PrefixCache

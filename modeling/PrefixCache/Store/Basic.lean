import PrefixCache.Compression
import PrefixCache.Store.Counters
import PrefixCache.Trie.Walk
/-!
# The store

The store is a trie of items with its counters, its limits and its clock.
Here are the steps that every operation is made of: bringing an item in,
taking one out, and looking at a node, which destroys the item there when
it has lapsed (`liveAt`).
-/

namespace PrefixCache

/-- The build that runs, as it reports itself. -/
structure Build where
  profile : String := "release"
  architecture : String := "x86_64"
  wordBits : Nat := 64
  deriving Repr, DecidableEq

/-- The machine a build is for. -/
def Build.machine (b : Build) : String := s!"{b.architecture} ({b.wordBits} bit)"

/-- What is fixed while a store is in use: its limits, and the build that
runs. -/
structure StoreLimits where
  /-- The memory budget in bytes. -/
  maxMemory : Nat := 2 * 1024 * 1024 * 1024
  /-- The longest time to live, in seconds. -/
  maxItemTtl : Int := 2592000
  /-- Values longer than this are compressed. -/
  compressAbove : Nat := 40960
  /-- Items not used for this many seconds may be evicted. -/
  staleAfter : Int := 3600
  build : Build := {}

/-- Why an operation is refused. -/
inductive StoreError where
  | notFound
  | notANumber
  | outOfMemory
  | locked
  | corrupt
  deriving Repr, DecidableEq

/-- The wording of a refusal. -/
def StoreError.message : StoreError → String
  | notFound => "key not found"
  | notANumber => "value is not a number"
  | outOfMemory => "memory limit reached"
  | locked => "item is locked"
  | corrupt => "stored value could not be decoded"

/-- A store. -/
structure Store where
  trie : Trie Item
  counters : Counters
  limits : StoreLimits
  /-- The clock, in seconds since the Unix epoch. It may be set to any signed
  word, but what counts from a time counts in signed words, too (`Item.age`,
  `Item.idle`). -/
  now : Int

/-- What an operation gives: its result, and the store it leaves. -/
abbrev Outcome (β : Type) := Except StoreError β × Store

namespace Store

/-- A store without items, whose clock stands at `now`. -/
def empty (limits : StoreLimits) (now : Int) : Store :=
  { trie := .empty, counters := { started := now }, limits, now }

/-- Sets the clock. -/
def setClock (s : Store) (now : Int) : Store := { s with now }

/-- How many keys hold an item, lapsed ones included. -/
def size (s : Store) : Nat := s.trie.size

/-- More memory is used than the budget allows. -/
def OverBudget (s : Store) : Prop := s.limits.maxMemory < s.counters.memoryUsed

instance (s : Store) : Decidable s.OverBudget := inferInstanceAs (Decidable (_ < _))

/-! ## Values -/

/-- The form in which a value is kept: compressed when it is longer than
the threshold and that saves enough. -/
def encode (s : Store) (data : Bytes) : Value :=
  if s.limits.compressAbove < data.length then
    match Compression.compress? data with
    | some packed => .compressed packed
    | none => .plain data
  else .plain data

/-- A kept value as clients see it. -/
def expose : Value → Except Lz4.Damage Value
  | .compressed packed => (Compression.restore packed).map .plain
  | v => .ok v

/-- Counts a compression, when the value is kept compressed. -/
def countCompression (s : Store) (full : Nat) : Value → Store
  | .compressed packed => { s with counters := s.counters.compressed full packed.length }
  | _ => s

/-- A requested time to live, cut to the longest allowed. -/
def clampTtl (s : Store) (ttl : Int) : Int := min ttl s.limits.maxItemTtl

/-! ## Items -/

/-- Makes an item that is stamped with the clock, and counts it. -/
def create (s : Store) (value : Value) (ttl : Int) : Item × Store :=
  let item := Item.create value (s.clampTtl ttl) s.now
  (item, { s with counters := s.counters.created item s.now })

/-- Counts an item, if there is one, as gone. -/
def discard (s : Store) : Option Item → Store
  | some item => { s with counters := s.counters.destroyed item }
  | none => s

/-- Empties a node and counts its item as gone. -/
def destroyAt (s : Store) (id : NodeId) : Store :=
  let (old, trie) := s.trie.take id
  { s with trie }.discard old

/-- Brings an item in under a key and discards the one it replaces. -/
def insert (s : Store) (key : Bytes) (item : Item) : Store :=
  let (old, trie) := s.trie.insert key item
  { s with trie }.discard old

/-- Brings an item in at a node and discards the one it replaces. -/
def insertAt (s : Store) (id : NodeId) (item : Item) : Store :=
  let (old, trie) := s.trie.swap id (some item)
  { s with trie }.discard old

/-- Changes the item of a node in place. -/
def reviseAt (s : Store) (id : NodeId) (old new : Item) : Store :=
  { s with
    trie := (s.trie.swap id (some new)).2
    counters := s.counters.resized old.size new.size }

/-- The live item of a node. One that has lapsed is destroyed. -/
def liveAt (s : Store) (id : NodeId) : Option Item × Store :=
  match s.trie.get? id with
  | none => (none, s)
  | some item => if item.Lapsed s.now then (none, s.destroyAt id) else (some item, s)

/-- The node and item of a live key. -/
def liveKey (s : Store) (key : Bytes) : Option (NodeId × Item) × Store :=
  match s.trie.findNode? key with
  | none => (none, s)
  | some id =>
    let (item, s) := s.liveAt id
    (item.map fun item => (id, item), s)

/-- Destroys the item of a node if it has lapsed, and says whether one is
left. -/
def check (s : Store) (id : NodeId) : Bool × Store :=
  let (item, s) := s.liveAt id
  (item.isSome, s)

end Store

end PrefixCache

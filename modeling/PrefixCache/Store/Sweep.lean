import PrefixCache.Store.Basic
/-!
# Sweeps

A sweep walks the whole trie and destroys items: those that have lapsed,
those that are stale while the budget is exceeded, or all of them.
-/

namespace PrefixCache

/-- What a sweep did: how many items it looked at, and how many it
destroyed. -/
structure SweepReport where
  scanned : Nat := 0
  freed : Nat := 0
  deriving Repr, DecidableEq

namespace Store

/-- What a sweep carries along. -/
abbrev Sweeping := SweepReport × Counters

/-- Walks over all slots with a visitor that keeps the counters right. -/
def sweep (s : Store) (visit : Trie.Visitor Item Sweeping) : SweepReport × Store :=
  let (trie, report, counters) := s.trie.recurse Trie.root visit ({}, s.counters)
  (report, { s with trie, counters })

/-- Destroys the item of a slot. -/
def sweepOut (item : Item) : Sweeping → Option Item × Sweeping
  | (report, counters) =>
    (none, { report with freed := report.freed + 1 }, counters.destroyed item)

/-- Counts the item of a slot as looked at. -/
def scan : Sweeping → Sweeping
  | (report, counters) => ({ report with scanned := report.scanned + 1 }, counters)

/-- Destroys what has lapsed. -/
def expireVisitor (now : Int) : Trie.Visitor Item Sweeping
  | _, none, state => (none, state)
  | _, some item, state =>
    if item.Lapsed now then sweepOut item (scan state) else (some item, scan state)

/-- The item may be evicted: it is unlocked, and lapsed or stale. -/
def Evictable (limits : StoreLimits) (now : Int) (item : Item) : Prop :=
  ¬ item.Locked now ∧ (item.Lapsed now ∨ limits.staleAfter ≤ item.idle now)

instance (limits : StoreLimits) (now : Int) (item : Item) :
    Decidable (Evictable limits now item) :=
  inferInstanceAs (Decidable (_ ∧ _))

/-- Evicts while the budget is exceeded. -/
def evictVisitor (limits : StoreLimits) (now : Int) : Trie.Visitor Item Sweeping
  | _, none, state => (none, state)
  | _, some item, state =>
    if state.2.memoryUsed ≤ limits.maxMemory then (some item, state)
    else if Evictable limits now item then sweepOut item (scan state)
    else (some item, scan state)

/-- Destroys every item that has lapsed. -/
def expireSweep (s : Store) : SweepReport × Store := s.sweep (expireVisitor s.now)

/-- Evicts items in the order of the walk until the budget is met or
nothing is left to evict. -/
def memorySweep (s : Store) : SweepReport × Store :=
  if s.OverBudget then s.sweep (evictVisitor s.limits s.now) else ({}, s)

/-- Destroys every item and every node, and gives the number of items. -/
def destroyAll (s : Store) : Nat × Store :=
  let (report, s) := s.sweep fun _ slot state =>
    match slot with
    | some item => sweepOut item state
    | none => (none, state)
  (report.freed, { s with trie := .empty })

end Store

end PrefixCache

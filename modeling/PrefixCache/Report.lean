import PrefixCache.Decimal.Fixed
import PrefixCache.Store.Counters
/-!
# Figures for people

Sizes are shown in the largest unit that leaves at least one of it, with
one place, and times in days, hours, minutes and seconds.
-/

namespace PrefixCache

namespace Report

/-- The units of a size after bytes, each 1024 of the one before. -/
def units : List String := ["KB", "MB", "GB", "TB"]

/-- A size of `x` in `unit`, moved on to larger units while it can be. -/
def inUnits (x : Float) (unit : String) : List String → String
  | [] => Decimal.fixed 1 x ++ unit
  | larger :: rest =>
    if x < 1024 then Decimal.fixed 1 x ++ unit else inUnits (x / 1024) larger rest

/-- A number of bytes. Less than 1024 of them are shown as they are. -/
def size (n : Nat) : String :=
  match units with
  | larger :: rest =>
    if n < 1024 then toString n ++ "B" else inUnits (Counters.toDouble n / 1024) larger rest
  | [] => toString n ++ "B"

/-- A time in seconds; one before the start counts as none. -/
def span (seconds : Int) : String :=
  let s := seconds.toNat
  let days := s / 86400
  let hours := s % 86400 / 3600
  let minutes := s % 3600 / 60
  let rest := s % 60
  s!"{days}d {hours}h {minutes}m {rest}s"

/-- A memory budget that the machine can afford: one above what is left
is cut to half of that. Nothing is known when nothing is left. -/
def affordable (budget available : Nat) : Nat :=
  if 0 < available ∧ available < budget then available / 2 else budget

end Report

/-- The figures of a running server at one moment. -/
structure Snapshot where
  uptime : Int
  memoryUsed : Nat
  maxMemory : Nat
  items : Nat
  clients : Nat
  deriving Repr, DecidableEq

/-- A snapshot in one line. -/
def Snapshot.text (s : Snapshot) : String :=
  "UPTIME " ++ Report.span s.uptime ++ " - MEM " ++ Report.size s.memoryUsed ++ "/"
    ++ Report.size s.maxMemory ++ s!" - OBJECTS {s.items} - CLIENTS {s.clients}"

end PrefixCache

import PrefixCache.Server.Timers
/-!
# Taking turns

Timers that run on one thread take turns. A timer whose time has come
stands in a row. In its turn it runs as often as it is due at once, but no
more than `runsPerTurn` times: then it gives way to the others, and so it
does before it is armed again. A round serves the first places of the row,
and the timers that gave way in it come back behind the row, the last one
first.

Time passes only while nobody stands in the row. When it has passed up to
a limit, the timers due then stand in the row but have not run: whoever
let the time pass comes first.
-/

namespace PrefixCache

/-- What a timer does when it runs at a time. -/
abbrev Callback (κ σ : Type) := κ → Nat → σ → TimerAction × σ

/-- Timers under way, and the time. -/
structure Rota (κ : Type) where
  now : Nat := 0
  /-- The timers that wait for their time. -/
  armed : Timers κ := []
  /-- The timers whose turn comes, the next one first. A cancelled timer
  leaves an empty place. -/
  row : List (Option (Timer κ)) := []

namespace Rota

variable {κ σ : Type}

/-- How often a timer may run in one turn. -/
def runsPerTurn : Nat := 128

/-- How many places are served in a round. -/
def placesPerRound : Nat := 61

/-- How the turn of a timer ends. -/
inductive TurnEnd (κ : Type) where
  | stopped
  /-- The timer waits for its time. -/
  | waits (t : Timer κ)
  /-- The timer has used up its turn. -/
  | givesWay (t : Timer κ)

/-- Timers that are started now; each first runs after its delay. -/
def start (timers : List (κ × Nat)) : Rota κ :=
  { row := timers.map fun (label, delay) => some { label, due := delay } }

/-- Whether a timer is still under way. -/
def contains [BEq κ] (r : Rota κ) (label : κ) : Bool :=
  r.armed.contains label || r.row.any fun place => place.any fun t => t.label == label

/-- Takes a timer out, so that it never runs again. -/
def cancel [BEq κ] (r : Rota κ) (label : κ) : Rota κ :=
  { r with
    armed := r.armed.cancel label
    row := r.row.map (fun place => place.filter fun t => t.label != label)
      ++ if r.armed.contains label then [none] else [] }

/-- The turn of a timer that may still run `runs` times. -/
def turn (callback : Callback κ σ) (now : Nat) : (runs : Nat) → Timer κ → σ → TurnEnd κ × σ
  | 0, t, s => (.givesWay t, s)
  | runs + 1, t, s =>
    if now < t.due then (.waits t, s)
    else
      match callback t.label now s with
      | (.stop, s) => (.stopped, s)
      | (.rearm delay, s) => turn callback now runs { t with due := now + delay } s

/-- Serves places one after the other. Timers that wait are armed; those
that give way are collected, the last one first. -/
def serve (callback : Callback κ σ) (now : Nat) :
    List (Option (Timer κ)) → (armed : Timers κ) → (back : List (Option (Timer κ))) → σ →
      Timers κ × List (Option (Timer κ)) × σ
  | [], armed, back, s => (armed, back, s)
  | none :: rest, armed, back, s => serve callback now rest armed back s
  | some t :: rest, armed, back, s =>
    match turn callback now runsPerTurn t s with
    | (.stopped, s) => serve callback now rest armed back s
    | (.waits t, s) => serve callback now rest (armed ++ [t]) back s
    | (.givesWay t, s) => serve callback now rest armed (some t :: back) s

/-- One round. -/
def round (callback : Callback κ σ) (r : Rota κ) (s : σ) : Rota κ × σ :=
  let (armed, back, s) := serve callback r.now (r.row.take placesPerRound) r.armed [] s
  ({ r with armed, row := r.row.drop placesPerRound ++ back }, s)

/-- Lets time pass until a timer is due, or up to the limit. -/
def wake (r : Rota κ) (limit : Nat) : Rota κ :=
  let now := match r.armed.first? with
    | some t => min t.due limit
    | none => limit
  { now
    armed := r.armed.filter fun t => now < t.due
    row := r.row ++ (r.armed.filter fun t => t.due ≤ now).map some }

/-- Lets time pass up to a limit, in at most `steps` steps. -/
def elapse (callback : Callback κ σ) (limit : Nat) : (steps : Nat) → Rota κ → σ → Rota κ × σ
  | 0, r, s => (r, s)
  | steps + 1, r, s =>
    if limit ≤ r.now then (r, s)
    else if r.row.isEmpty then elapse callback limit steps (r.wake limit) s
    else
      let (r, s) := r.round callback s
      elapse callback limit steps r s

end Rota

end PrefixCache

/-!
# Timers

A timer is armed for a time and is then due. Of several timers, the one
that is due first comes first, and of several that are due at the same
time the one that was armed first. What is due at a limit does not come
before it (`next?_due`).
-/

namespace PrefixCache

/-- What a callback says when it has run. -/
inductive TimerAction where
  | rearm (delay : Nat)
  | stop
  deriving Repr, DecidableEq

/-- An armed timer. Times are milliseconds. -/
structure Timer (κ : Type) where
  label : κ
  due : Nat
  deriving Repr, DecidableEq

/-- The armed timers, in the order in which they were armed. -/
abbrev Timers (κ : Type) := List (Timer κ)

namespace Timers

variable {κ : Type}

/-- Arms a timer that is due after a delay. -/
def arm (ts : Timers κ) (label : κ) (now delay : Nat) : Timers κ :=
  ts ++ [{ label, due := now + delay }]

/-- Whether a timer is armed. -/
def contains [BEq κ] (ts : Timers κ) (label : κ) : Bool := ts.any fun t => t.label == label

/-- Takes a timer out, so that it never runs again. -/
def cancel [BEq κ] (ts : Timers κ) (label : κ) : Timers κ := ts.filter fun t => t.label != label

/-- The timer that is due first: of two at the same time, the one armed
first. -/
def first? : Timers κ → Option (Timer κ)
  | [] => none
  | t :: rest =>
    match first? rest with
    | none => some t
    | some u => if t.due ≤ u.due then some t else some u

/-- The next timer that is due before `limit`, and the others. -/
def next? [DecidableEq κ] (ts : Timers κ) (limit : Nat) : Option (Timer κ × Timers κ) :=
  match first? ts with
  | none => none
  | some t => if t.due < limit then some (t, ts.erase t) else none

/-- The timer that runs next was due before the limit. -/
theorem next?_due [DecidableEq κ] {ts rest : Timers κ} {limit : Nat} {t : Timer κ}
    (h : ts.next? limit = some (t, rest)) : t.due < limit := by
  unfold next? at h
  split at h
  · cases h
  · split at h
    · next hlt =>
      obtain ⟨rfl, -⟩ := Prod.mk.inj (Option.some.inj h)
      exact hlt
    · cases h

end Timers

end PrefixCache

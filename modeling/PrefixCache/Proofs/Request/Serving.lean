import PrefixCache.Proofs.Store.Values
/-!
# Serving requests

What happens to the store of a server is an event: a request, a sweep, or a
move of the clock. A request does one of three things (`execute_cases`): a
body that is none leaves the store alone, one whose fields are refused is
counted, and one that is a command is counted and carried out. So every
event is a run of operations (`Event.run_eq_after`), and what is known of
the stores that runs lead to is known of the stores that events lead to
(`Served.reached`).
-/

namespace PrefixCache

/-! ## Requests -/

/-- The command of a request body, if it is one. -/
def Command.ofBody? (fields : FieldLimits) (body : Bytes) : Option Command :=
  (Request.ofBody body).toOption.bind fun r => (ofRequest fields r).toOption

/-- **What a request does**: nothing, or it is counted and refused, or it is
counted and its command carried out. -/
theorem Store.execute_cases (s : Store) (fields : FieldLimits) (body : Bytes) :
    (∃ e, Request.ofBody body = .error e ∧ s.execute fields body = (.error e, s)) ∨
      (∃ (r : Request) (refusal : Refusal), Request.ofBody body = .ok r ∧
        Command.ofBody? fields body = none ∧
        s.execute fields body = (.ok refusal.reply, s.countRequest)) ∨
      (∃ (r : Request) (command : Command), Request.ofBody body = .ok r ∧
        Command.ofBody? fields body = some command ∧
        s.execute fields body =
          (.ok (command.run s.countRequest).1, (command.run s.countRequest).2)) := by
  unfold execute dispatch Command.ofBody?
  cases hbody : Request.ofBody body with
  | error e => exact .inl ⟨e, rfl, rfl⟩
  | ok r =>
    cases hcommand : Command.ofRequest fields r with
    | error refusal =>
      exact .inr (.inl ⟨r, refusal, rfl, congrArg Except.toOption hcommand, by simp only [hcommand]⟩)
    | ok command =>
      exact .inr (.inr ⟨r, command, rfl, congrArg Except.toOption hcommand, by simp only [hcommand]⟩)

/-- A body that is a command is counted, and its command carried out. -/
theorem Store.execute_of_command {fields : FieldLimits} {body : Bytes} {command : Command}
    (h : Command.ofBody? fields body = some command) (s : Store) :
    s.execute fields body =
      (.ok (command.run s.countRequest).1, (command.run s.countRequest).2) := by
  rcases s.execute_cases fields body with ⟨e, hbody, -⟩ | ⟨r, refusal, -, hnone, -⟩ |
    ⟨r, command', -, hsome, hrun⟩
  · rw [Command.ofBody?, hbody] at h
    cases h
  · rw [hnone] at h
    cases h
  · obtain rfl := Option.some.inj (h.symm.trans hsome)
    exact hrun

/-- **A body that is no command is answered without the store**, which counts
the request at most. -/
theorem Store.execute_of_no_command {fields : FieldLimits} {body : Bytes}
    (h : Command.ofBody? fields body = none) :
    ∃ answer, (∀ s : Store, s.execute fields body = (answer, s)) ∨
      ∀ s : Store, s.execute fields body = (answer, s.countRequest) := by
  unfold Command.ofBody? at h
  cases hbody : Request.ofBody body with
  | error e => exact ⟨.error e, .inl fun s => by simp only [execute, hbody]⟩
  | ok r =>
    cases hcommand : Command.ofRequest fields r with
    | error refusal =>
      exact ⟨.ok refusal.reply, .inr fun s => by simp only [execute, dispatch, hbody, hcommand]⟩
    | ok command => simp [hbody, hcommand, Except.toOption] at h

/-- What the server has noted about itself. -/
def Counters.figures (c : Counters) : Figures :=
  { clients := c.clients
    cronRuns := c.cronRuns
    connections := c.connections
    requests := c.requests
    available := c.available
    resident := c.resident }

/-! ## Events -/

/-- Anything that happens to the store of a server. -/
inductive Event where
  | request (fields : FieldLimits) (body : Bytes)
  | expireSweep
  | memorySweep
  | destroyAll
  | setClock (now : Int)
  deriving DecidableEq

namespace Event

/-- The store an event leaves. -/
def run (e : Event) (s : Store) : Store :=
  match e with
  | request fields body => (s.execute fields body).2
  | expireSweep => s.expireSweep.2
  | memorySweep => s.memorySweep.2
  | destroyAll => s.destroyAll.2
  | setClock now => s.setClock now

/-- The operation an event asks for. -/
def operation? : Event → Option Operation
  | request fields body => (Command.ofBody? fields body).bind Command.operation?
  | expireSweep => some .expireSweep
  | memorySweep => some .memorySweep
  | destroyAll => some .destroyAll
  | setClock now => some (.setClock now)

/-- The entry an event makes about the server. -/
def entry? (s : Store) : Event → Option Operation
  | request _ body => (Request.ofBody body).toOption.map fun _ =>
      .note { s.counters.figures with requests := s.counters.requests + 1 }
  | _ => none

/-- **An event is a run of operations.** -/
theorem run_eq_after (e : Event) (s : Store) :
    e.run s = s.after ((e.entry? s).toList ++ e.operation?.toList) := by
  cases e with
  | request fields body =>
    rcases s.execute_cases fields body with ⟨e, hbody, h⟩ | ⟨r, refusal, hbody, hnone, h⟩ |
      ⟨r, command, hbody, hsome, h⟩
    · have hnone : Command.ofBody? fields body = none := by rw [Command.ofBody?, hbody]; rfl
      simp only [run, entry?, operation?, h, hbody, hnone]
      rfl
    · simp only [run, entry?, operation?, h, hbody, hnone]
      rfl
    · simp only [run, entry?, operation?, h, hbody, hsome, Option.bind_some, command.run_snd]
      cases command.operation? <;> rfl
  | _ => rfl

/-- Whatever the event brings in survives compression. -/
def Restores (e : Event) : Prop := ∀ op ∈ e.operation?, op.Restores

instance (e : Event) : Decidable e.Restores :=
  inferInstanceAs (Decidable (∀ op ∈ e.operation?, _))

end Event

namespace Store

/-- The store after events. -/
def serve (s : Store) (events : List Event) : Store := events.foldl (fun s e => e.run s) s

/-- Allowed events lead to the store, from one without items. -/
inductive Served (allowed : Event → Prop) : Store → Prop
  | empty (limits : StoreLimits) (now : Int) : Served allowed (.empty limits now)
  | step {s : Store} (e : Event) : Served allowed s → allowed e → Served allowed (e.run s)

variable {s : Store} {allowed : Event → Prop}

theorem Served.serve (h : s.Served allowed) {events : List Event}
    (hevents : ∀ e ∈ events, allowed e) : (s.serve events).Served allowed := by
  induction events generalizing s with
  | nil => exact h
  | cons e events ih =>
    obtain ⟨hfirst, hrest⟩ := List.forall_mem_cons.1 hevents
    exact ih (.step e h hfirst) hrest

/-- **Where events lead, a run leads**, of the operations they ask for and
of entries. -/
theorem Served.reached {permitted : Operation → Prop} (h : s.Served allowed)
    (hentry : ∀ figures, permitted (.note figures))
    (hasked : ∀ e, allowed e → ∀ op ∈ e.operation?, permitted op) : s.Reached permitted := by
  induction h with
  | empty limits now => exact .empty limits now
  | @step s e _ hallowed ih =>
    rw [e.run_eq_after s]
    refine ih.after fun op hop => ?_
    rcases List.mem_append.1 hop with hmem | hmem
    · cases e with
      | request fields body =>
        obtain ⟨r, -, rfl⟩ := Option.map_eq_some_iff.1 (Option.mem_toList.1 hmem)
        exact hentry _
      | _ => cases hmem
    · exact hasked e hallowed op (Option.mem_toList.1 hmem)

theorem Served.reachable (h : s.Served allowed) : s.Reachable :=
  h.reached (fun _ => trivial) fun _ _ _ _ => trivial

/-- Where data is brought in that survives compression, so do runs. -/
theorem Served.restoring (h : s.Served Event.Restores) : s.Reached Operation.Restores :=
  h.reached (fun _ _ hdata => nomatch hdata) fun _ hrestores => hrestores

end Store

end PrefixCache

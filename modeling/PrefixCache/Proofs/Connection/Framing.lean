import PrefixCache.Proofs.Connection.Transcript
/-!
# Framing does not depend on arrival

A session is a link that is left alone with its stream: pieces arrive when
they like, the stream takes bytes when it likes, and the link turns when it
likes. What it will have come to when all is over is its outlook: what it
has done so far, and after that what the bytes come to that are unread or
still to come. Nothing that happens changes the outlook
(`Session.outlook_happen`), and at the end it is what was done. So a session
comes to what its stream comes to as a whole (`framing_ignores_arrival`).
-/

namespace PrefixCache

namespace Link

/-! ## The outlook of a view -/

namespace View

variable (limits : ConnectionLimits) (fields : FieldLimits) (clock : Nat → Int)

/-- What a link comes to that looks like `v`, has answered `requests`, and
has `future` still to come. -/
def outlook (requests : List Request) (v : View) (future : Bytes) : Transcript :=
  let (bodies, tail) := framesFrom limits.maxRequest v.phase (v.unread ++ future)
  (Transcript.ofBodies limits fields clock (tail.ending limits.maxRequest) requests.length v.store
    bodies).after requests (v.written ++ v.unsent)

variable {limits fields clock} {requests : List Request} {v v' : View} {asked : Option Request}
variable {w : Wire} {e : Ending} {store : Store} {future : Bytes}

theorem outlook_of_frames {cut : List Bytes × Tail}
    (h : framesFrom limits.maxRequest v.phase (v.unread ++ future) = cut) :
    v.outlook limits fields clock requests future =
      (Transcript.ofBodies limits fields clock (cut.2.ending limits.maxRequest) requests.length
        v.store cut.1).after requests (v.written ++ v.unsent) := by
  subst h
  rfl

/-- The frames that are cut when a whole body is unread. -/
theorem framesFrom_of_unread {most length : Nat} {body rest : Bytes}
    (hphase : v.phase = .awaitingBody length) (hunread : v.unread = body ++ rest)
    (hbody : body.length = length) (future : Bytes) :
    framesFrom most v.phase (v.unread ++ future) =
      (body :: (frames most (rest ++ future)).1, (frames most (rest ++ future)).2) := by
  rw [hphase, hunread, List.append_assoc, framesFrom_of_body hbody]

/-- **A turn that goes on keeps the outlook.** -/
theorem Next.outlook_eq (hmost : limits.maxRequest < 9223372036854775808)
    (hnext : Next limits fields (clock requests.length) v asked v') (future : Bytes) :
    v'.outlook limits fields clock (requests ++ asked.toList) future =
      v.outlook limits fields clock requests future := by
  cases hnext with
  | rests => rw [Option.toList_none, List.append_nil]
  | @takesLength word rest length hphase hunread hword hlength hleast hbound =>
    -- the same bytes are cut, now from within the frame
    have hframes : framesFrom limits.maxRequest v.phase (v.unread ++ future) =
        framesFrom limits.maxRequest (.awaitingBody length.toNat) (rest ++ future) := by
      rw [hphase, hunread, List.append_assoc]
      exact frames_of_length hmost hword hlength hleast hbound
    rw [outlook_of_frames hframes, unsent_of_awaitingLength hphase, Option.toList_none,
      List.append_nil]
    rfl
  | @answers length body rest r hphase hunread hbody hr hfits =>
    rw [outlook_of_frames (framesFrom_of_unread hphase hunread hbody future),
      unsent_of_awaitingBody hphase, Option.toList_some]
    by_cases hfinish : r.opcode = .finish
    · rw [Transcript.ofBodies_of_finish hr hfits hfinish]
      simp [outlook, unsent, framesFrom, hfinish, Transcript.ofBodies, Transcript.after, Tail.ending]
    · have hcloses : (r.opcode == Opcode.finish) = false := by simpa using hfinish
      rw [Transcript.ofBodies_of_answered hr hfits hfinish, Transcript.after_after, hcloses]
      simp only [outlook, unsent, framesFrom, List.length_append, List.length_singleton,
        List.append_nil]
  | @sends closing front rest hphase hreply =>
    simp only [outlook, unsent, hphase, hreply, Option.toList_none, List.append_nil,
      List.append_assoc]
  | completes hphase hreply =>
    simp only [outlook, unsent, hphase, hreply, Option.toList_none, List.append_nil, framesFrom]

/-- **A link that ends has come to its outlook**, if its streams are intact
and nothing is to come after the end of its input. -/
theorem Halts.outlook_eq (hmost : limits.maxRequest < 9223372036854775808)
    (hhalts : Halts limits fields (clock requests.length) w .running v asked e store)
    (hinput : ∀ why, w.input ≠ .broken why) (hroom : ∀ why, w.room ≠ .broken why)
    (hfuture : w.input = .ended → future = []) :
    v.outlook limits fields clock requests future =
      { requests := requests ++ asked.toList, written := v.written, store, ending := e } := by
  cases hhalts with
  | closes hphase hreply =>
    have hframes : framesFrom limits.maxRequest v.phase (v.unread ++ future) = ([], .short) := by
      rw [hphase]
      rfl
    rw [outlook_of_frames hframes, unsent_of_sending hphase, hreply]
    simp [Transcript.ofBodies, Transcript.after, Tail.ending]
  | @badLength word rest length hphase hunread hword hlength hrefused =>
    have hframes : framesFrom limits.maxRequest v.phase (v.unread ++ future) =
        ([], .badLength length) := by
      rw [hphase, hunread, List.append_assoc]
      exact frames_of_badLength hmost hword hlength hrefused
    rw [outlook_of_frames hframes, unsent_of_awaitingLength hphase]
    simp [Transcript.ofBodies, Transcript.after, Tail.ending]
  | @badBody length body rest error hphase hunread hbody hr =>
    rw [outlook_of_frames (framesFrom_of_unread hphase hunread hbody future),
      unsent_of_awaitingBody hphase, Transcript.ofBodies_of_badBody hr]
    simp [Transcript.after]
  | @tooLarge length body rest r hphase hunread hbody hr hlarge =>
    rw [outlook_of_frames (framesFrom_of_unread hphase hunread hbody future),
      unsent_of_awaitingBody hphase, Transcript.ofBodies_of_tooLarge hr hlarge]
    simp [Transcript.after]
  | stops _ hnotice => exact absurd rfl hnotice
  | runsOut hended hphase hshort =>
    have hframes : framesFrom limits.maxRequest v.phase (v.unread ++ future) = ([], .short) := by
      rw [hphase, hfuture hended, List.append_nil]
      exact frames_of_short hshort
    rw [outlook_of_frames hframes, unsent_of_awaitingLength hphase]
    simp [Transcript.ofBodies, Transcript.after, Tail.ending]
  | @breaksOff length hended hphase hshort =>
    have hframes : framesFrom limits.maxRequest v.phase (v.unread ++ future) =
        ([], .brokenOff) := by
      rw [hphase, hfuture hended, List.append_nil]
      exact framesFrom_of_short hshort
    rw [outlook_of_frames hframes, unsent_of_awaitingBody hphase]
    simp [Transcript.ofBodies, Transcript.after, Tail.ending]
  | fails why hbroken =>
    exact hbroken.elim (fun h => absurd h (hinput why)) fun h => absurd h (hroom why)

end View

end Link

/-! ## Sessions -/

/-- What can happen to a link that is left alone with its stream. -/
inductive Happening where
  /-- A piece of the stream arrives. -/
  | arrives (piece : Bytes)
  /-- The stream is over. -/
  | inputEnds
  /-- The stream takes so many bytes. -/
  | takes (n : Nat)
  | takesAll
  /-- The link takes a turn, at a time. -/
  | turns (tick : Nat)
  deriving DecidableEq

/-- A link with its hub, and the requests it has answered. -/
structure Session where
  link : Link
  hub : Hub
  requests : List Request := []

/-- The stream that arrives in the course of events. After its end nothing
does. -/
def arriving : List Happening → Bytes
  | [] => []
  | .arrives piece :: rest => piece ++ arriving rest
  | .inputEnds :: _ => []
  | _ :: rest => arriving rest

namespace Session

/-- A session that begins. -/
def start (client : ClientId) (limits : ConnectionLimits) (hub : Hub) : Session :=
  { link := { connection := { client, limits } }, hub }

/-- Lets a running link take one turn. -/
def turn (m : Moment) (s : Session) : Session :=
  let (link, hub) := s.link.step s.hub .running m
  { link, hub, requests := s.requests ++ s.link.asked?.toList }

/-- What happens, when the calendar shows `clock n` for the request that
comes after `n` others. -/
def happen (clock : Nat → Int) (s : Session) : Happening → Session
  | .arrives piece =>
    if s.link.wire.input = .live then { s with link := s.link.deliver piece } else s
  | .inputEnds => { s with link := s.link.setInput .ended }
  | .takes n => { s with link := s.link.setRoom (.bytes n) }
  | .takesAll => { s with link := s.link.setRoom .unlimited }
  | .turns tick => s.turn { wall := clock s.requests.length, tick }

/-- What happens one after the other. -/
def follow (clock : Nat → Int) (s : Session) (events : List Happening) : Session :=
  events.foldl (happen clock) s

/-- Ends the input, lets everything leave, and lets the link turn until it
must have ended. -/
def close (clock : Nat → Int) (tick : Nat) (s : Session) : Session :=
  let s := s.follow clock [.inputEnds, .takesAll]
  s.follow clock (List.replicate (Link.effort s.link.connection s.link.wire + 1) (.turns tick))

/-- The view of the link. -/
def view (s : Session) : Link.View := Link.view s.link.connection s.link.wire s.hub

/-- What a session has come to, or comes to with `future` still to
arrive. -/
def outlook (clock : Nat → Int) (s : Session) (future : Bytes) : Transcript :=
  match s.link.state with
  | .ended e =>
    { requests := s.requests, written := s.link.wire.written, store := s.hub.store, ending := e }
  | _ => s.view.outlook s.link.connection.limits s.hub.fields clock s.requests future

/-- What is still to arrive in the course of events. -/
def future (s : Session) (events : List Happening) : Bytes :=
  if s.link.wire.input = .live then arriving events else []

/-- A session whose streams are intact, and whose link was not aborted. -/
structure Sound (s : Session) : Prop where
  most : s.link.connection.limits.maxRequest < 9223372036854775808
  input (why : String) : s.link.wire.input ≠ .broken why
  room (why : String) : s.link.wire.room ≠ .broken why
  state : s.link.state ≠ .aborted

variable {s : Session} {clock : Nat → Int} {m : Moment}

/-! ## One turn -/

/-- **What a turn of a session does**: nothing, or what the link does. -/
theorem turn_cases (hrun : s.link.state = .running) (m : Moment) :
    (∃ c w h, Link.turn s.link.connection s.link.wire s.hub .running m = .goesOn c w h ∧
      s.turn m = { link := { connection := c, wire := w }, hub := h
                   requests := s.requests ++ s.link.connection.asked?.toList }) ∨
    (Link.turn s.link.connection s.link.wire s.hub .running m = .waits ∧ s.turn m = s) ∨
    (∃ e w h, Link.turn s.link.connection s.link.wire s.hub .running m = .ends e w h ∧
      s.turn m = { link := { connection := s.link.connection, wire := w, state := .ended e }
                   hub := h
                   requests := s.requests ++ s.link.connection.asked?.toList }) := by
  have hasked := Link.asked?_of_running hrun
  rcases Link.step_cases s.hub .running m hrun with
    ⟨c, w, h, ht, hstep⟩ | ⟨ht, hstep⟩ | ⟨e, w, h, ht, hstep⟩
  · exact .inl ⟨c, w, h, ht, by rw [turn, hstep, hasked]⟩
  · refine .inr (.inl ⟨ht, ?_⟩)
    rw [turn, hstep, hasked, Link.asked?_of_waits ht, Option.toList_none, List.append_nil]
  · exact .inr (.inr ⟨e, w, h, ht, by rw [turn, hstep, hasked]⟩)

theorem turn_of_not_running (h : s.link.state ≠ .running) (m : Moment) : s.turn m = s := by
  rw [turn, Link.step_of_not_running _ _ _ h, Link.asked?_of_not_running h, Option.toList_none,
    List.append_nil]

theorem Sound.turn (h : s.Sound) (m : Moment) : (s.turn m).Sound := by
  by_cases hrun : s.link.state = .running
  · rcases turn_cases hrun m with ⟨c, w, hub, ht, heq⟩ | ⟨-, heq⟩ | ⟨e, w, hub, ht, heq⟩
    · obtain ⟨-, hcont⟩ := Link.turn_goesOn ht
      rw [heq]
      exact ⟨hcont.limits ▸ h.most, fun why => hcont.input ▸ h.input why,
        fun why hb => h.room why (hcont.broken why hb), nofun⟩
    · rw [heq]
      exact h
    · obtain ⟨-, -, rfl⟩ := Link.turn_ends ht
      rw [heq]
      exact ⟨h.most, h.input, h.room, nofun⟩
  · rw [turn_of_not_running hrun]
    exact h

/-- A turn leaves the input as it is. -/
theorem input_turn (s : Session) (m : Moment) : (s.turn m).link.wire.input = s.link.wire.input := by
  by_cases hrun : s.link.state = .running
  · rcases turn_cases hrun m with ⟨c, w, hub, ht, heq⟩ | ⟨-, heq⟩ | ⟨e, w, hub, ht, heq⟩
    · rw [heq]
      exact (Link.turn_goesOn ht).2.input
    · rw [heq]
    · rw [heq, (Link.turn_ends ht).2.2]
  · rw [turn_of_not_running hrun]

/-- **A turn keeps the outlook.** -/
theorem outlook_turn (h : s.Sound) {tick : Nat} {future : Bytes}
    (hfuture : s.link.wire.input = .ended → future = []) :
    (s.turn { wall := clock s.requests.length, tick }).outlook clock future =
      s.outlook clock future := by
  by_cases hrun : s.link.state = .running
  · rcases turn_cases hrun { wall := clock s.requests.length, tick } with
      ⟨c, w, hub, ht, heq⟩ | ⟨-, heq⟩ | ⟨e, w, hub, ht, heq⟩
    · obtain ⟨hnext, hcont⟩ := Link.turn_goesOn ht
      rw [heq]
      simp only [outlook, hrun, view, hcont.limits, hcont.fields]
      exact hnext.outlook_eq h.most future
    · rw [heq]
    · obtain ⟨hhalts, -, rfl⟩ := Link.turn_ends ht
      rw [heq]
      simp only [outlook, hrun, view]
      exact (hhalts.outlook_eq h.most h.input h.room hfuture).symm
  · rw [turn_of_not_running hrun]

/-! ## All that happens -/

theorem Sound.happen (h : s.Sound) (clock : Nat → Int) (e : Happening) : (s.happen clock e).Sound := by
  cases e with
  | arrives piece =>
    simp only [Session.happen]
    split
    · exact ⟨h.most, h.input, h.room, h.state⟩
    · exact h
  | inputEnds =>
    simp only [Session.happen, Link.setInput]
    split
    · exact h
    · exact ⟨h.most, nofun, h.room, h.state⟩
  | takes n =>
    simp only [Session.happen, Link.setRoom]
    split
    · exact h
    · exact ⟨h.most, h.input, nofun, h.state⟩
  | takesAll =>
    simp only [Session.happen, Link.setRoom]
    split
    · exact h
    · exact ⟨h.most, h.input, nofun, h.state⟩
  | turns tick => exact h.turn _

/-- **Nothing that happens changes the outlook.** -/
theorem outlook_happen (h : s.Sound) (clock : Nat → Int) (e : Happening) (events : List Happening) :
    (s.happen clock e).outlook clock ((s.happen clock e).future events) =
      s.outlook clock (s.future (e :: events)) := by
  cases e with
  | arrives piece =>
    by_cases hlive : s.link.wire.input = .live
    · -- what has arrived is unread, and no longer to come
      have hdelivered : (s.link.deliver piece).wire.input = .live := hlive
      simp only [Session.happen, future, hlive, if_true, hdelivered, arriving]
      simp [outlook, view, Link.view, Link.deliver, Link.View.outlook, Link.View.unsent, Wire.written]
    · simp only [Session.happen, future, hlive, if_false]
  | inputEnds =>
    have hended : ((s.happen clock .inputEnds).link.wire.input) ≠ .live := by
      simp only [Session.happen, Link.setInput]
      split
      · next why hb =>
        rw [hb]
        rintro ⟨⟩
      · rintro ⟨⟩
    have hrest : s.future (.inputEnds :: events) = [] := by
      simp only [future, arriving, ite_self]
    rw [future, if_neg hended, hrest]
    simp only [Session.happen, Link.setInput]
    split <;> rfl
  | takes n =>
    simp only [Session.happen, Link.setRoom]
    split <;> rfl
  | takesAll =>
    simp only [Session.happen, Link.setRoom]
    split <;> rfl
  | turns tick =>
    have hfuture : (s.turn { wall := clock s.requests.length, tick }).future events =
        s.future (.turns tick :: events) := by
      simp only [future, input_turn, arriving]
    simp only [Session.happen]
    rw [hfuture]
    refine outlook_turn h fun hended => ?_
    rw [future, hended]
    exact if_neg Input.noConfusion

theorem Sound.follow (h : s.Sound) (clock : Nat → Int) (events : List Happening) :
    (s.follow clock events).Sound := by
  induction events generalizing s with
  | nil => exact h
  | cons e events ih => exact ih (h.happen clock e)

theorem outlook_follow (h : s.Sound) (clock : Nat → Int) (events more : List Happening) :
    (s.follow clock events).outlook clock ((s.follow clock events).future more) =
      s.outlook clock (s.future (events ++ more)) := by
  induction events generalizing s with
  | nil => rfl
  | cons e events ih => exact (ih (h.happen clock e)).trans (outlook_happen h clock e _)

/-! ## The end of a session -/

/-- Once a link has ended, turns do nothing. -/
theorem follow_turns_of_ended {e : Ending} (h : s.link.state = .ended e) (clock : Nat → Int)
    (tick n : Nat) : s.follow clock (List.replicate n (.turns tick)) = s := by
  induction n with
  | zero => rfl
  | succ n ih =>
    have hturn : s.happen clock (.turns tick) = s := turn_of_not_running (by rw [h]; nofun) _
    rw [List.replicate_succ, follow, List.foldl_cons, hturn]
    exact ih

/-- **When nothing more comes in and everything may leave, a link ends**, in
no more turns than its effort. -/
theorem ended_of_effort (h : s.Sound) (hinput : s.link.wire.input = .ended)
    (hroom : s.link.wire.room = .unlimited) (clock : Nat → Int) (tick : Nat) {n : Nat}
    (hn : Link.effort s.link.connection s.link.wire < n) :
    ∃ e, (s.follow clock (List.replicate n (.turns tick))).link.state = .ended e := by
  induction n generalizing s with
  | zero => exact absurd hn (Nat.not_lt_zero _)
  | succ n ih =>
    cases hstate : s.link.state with
    | aborted => exact absurd hstate h.state
    | ended e => exact ⟨e, by rw [follow_turns_of_ended hstate, hstate]⟩
    | running =>
      rw [List.replicate_succ]
      rcases turn_cases hstate { wall := clock s.requests.length, tick } with
        ⟨c, w, hub, ht, heq⟩ | ⟨ht, -⟩ | ⟨e, w, hub, ht, heq⟩
      · -- the turn has cost some effort
        obtain ⟨-, hcont⟩ := Link.turn_goesOn ht
        have hless := Link.effort_lt_of_turn ht
        have hnext : (s.happen clock (.turns tick)).Sound := h.happen clock _
        rw [Session.happen, heq] at hnext
        rw [follow, List.foldl_cons, Session.happen, heq]
        refine ih hnext ?_ ?_ ?_
        · exact hcont.input.trans hinput
        · exact hcont.unlimited hroom
        · exact Nat.lt_of_lt_of_le hless (Nat.le_of_lt_succ hn)
      · rcases Link.of_turn_waits ht with hlive | hfull
        · rw [hinput] at hlive
          cases hlive
        · rw [hroom] at hfull
          cases hfull
      · have hlast : (s.turn { wall := clock s.requests.length, tick }).link.state = .ended e := by
          rw [heq]
        refine ⟨e, ?_⟩
        rw [follow, List.foldl_cons]
        exact (congrArg (fun s => s.link.state) (follow_turns_of_ended hlast clock tick n)).trans hlast

theorem arriving_append_inputEnds (events more : List Happening) :
    arriving (events ++ .inputEnds :: more) = arriving events := by
  induction events with
  | nil => rfl
  | cons e events ih =>
    cases e with
    | arrives piece => exact congrArg (piece ++ ·) ih
    | inputEnds => rfl
    | takes n => exact ih
    | takesAll => exact ih
    | turns tick => exact ih

theorem sound_start (client : ClientId) {limits : ConnectionLimits}
    (hmost : limits.maxRequest < 9223372036854775808) (hub : Hub) :
    (start client limits hub).Sound :=
  ⟨hmost, nofun, nofun, nofun⟩

/-- At the start the outlook is what the stream comes to. -/
theorem outlook_start (client : ClientId) (limits : ConnectionLimits) (hub : Hub)
    (clock : Nat → Int) (stream : Bytes) :
    (start client limits hub).outlook clock stream =
      Transcript.ofStream limits hub.fields clock hub.store stream := rfl

/-- To close a session is one more series of events. -/
theorem close_eq_follow (clock : Nat → Int) (tick : Nat) (s : Session) (events : List Happening) :
    ∃ turns, (s.follow clock events).close clock tick =
      s.follow clock (events ++ .inputEnds :: .takesAll :: turns) := by
  have hsplit (more : List Happening) :
      s.follow clock (events ++ more) = (s.follow clock events).follow clock more :=
    List.foldl_append
  let closing := (s.follow clock events).follow clock [.inputEnds, .takesAll]
  refine ⟨List.replicate (Link.effort closing.link.connection closing.link.wire + 1) (.turns tick), ?_⟩
  rw [hsplit]
  rfl

/-- Closing ends the input and lets everything leave. -/
theorem wire_closing (h : s.Sound) (clock : Nat → Int) :
    (s.follow clock [.inputEnds, .takesAll]).link.wire.input = .ended ∧
      (s.follow clock [.inputEnds, .takesAll]).link.wire.room = .unlimited := by
  have hended : (s.happen clock .inputEnds).link.wire.input = .ended := by
    simp only [Session.happen, Link.setInput]
    split
    · next why hb => exact absurd hb (h.input why)
    · rfl
  have hsound := h.happen clock .inputEnds
  simp only [follow, List.foldl_cons, List.foldl_nil]
  generalize s.happen clock .inputEnds = s' at hended hsound
  simp only [Session.happen, Link.setRoom]
  split
  · next why hb => exact absurd hb (hsound.room why)
  · exact ⟨hended, rfl⟩

end Session

/-! ## The law of framing -/

/-- **Framing does not depend on arrival.** In whatever pieces a stream
arrives, whenever the link takes its turns, and however the bytes leave:
when the stream is over and everything may leave, the link has ended, and
the requests it has answered, the bytes it has written, the store it leaves
and its ending are those that the stream comes to as a whole. A body that is
no request has an unknown opcode. -/
theorem framing_ignores_arrival {limits : ConnectionLimits}
    (hmost : limits.maxRequest < 9223372036854775808) (client : ClientId) (hub : Hub)
    (clock : Nat → Int) (events : List Happening) (tick : Nat) :
    let done := ((Session.start client limits hub).follow clock events).close clock tick
    let whole := Transcript.ofStream limits hub.fields clock hub.store (arriving events)
    done.link.state = .ended whole.ending ∧ done.requests = whole.requests ∧
      done.link.wire.written = whole.written ∧ done.hub.store = whole.store ∧
      ∀ e, whole.ending = .error (.badBody e) → ∃ code, e = .unknownOpcode code := by
  intro done whole
  have hstart := Session.sound_start client hmost hub
  have hbefore := hstart.follow clock events
  obtain ⟨hinput, hroom⟩ := Session.wire_closing hbefore clock
  obtain ⟨e, hended⟩ : ∃ e, done.link.state = .ended e :=
    Session.ended_of_effort (hbefore.follow clock [.inputEnds, .takesAll]) hinput hroom clock tick
      (Nat.lt_succ_self _)
  -- all that has happened is one series of events, and none of them changed the outlook
  obtain ⟨turns, hdone⟩ := Session.close_eq_follow clock tick (Session.start client limits hub) events
  have houtlook := Session.outlook_follow hstart clock
    (events ++ (.inputEnds :: .takesAll :: turns)) []
  have hfuture : (Session.start client limits hub).future
      (events ++ (.inputEnds :: .takesAll :: turns) ++ []) = arriving events := by
    rw [List.append_nil]
    exact (if_pos rfl).trans (Session.arriving_append_inputEnds events _)
  have hdone' : done = (Session.start client limits hub).follow clock
    (events ++ (.inputEnds :: .takesAll :: turns)) := hdone
  rw [← hdone', hfuture, Session.outlook_start, Session.outlook, hended] at houtlook
  refine ⟨?_, congrArg Transcript.requests houtlook, congrArg Transcript.written houtlook,
    congrArg Transcript.store houtlook, fun _ => Transcript.unknownOpcode_of_badBody⟩
  rw [hended]
  exact congrArg LinkState.ended (congrArg Transcript.ending houtlook)

/-- Two requests arrive in four pieces, within a length, within a body and
both at once, and their replies leave byte by byte at first. What comes
after the last request of a client is left alone. -/
theorem ping_and_finish_in_pieces :
    let limits : ConnectionLimits := { maxRequest := 16, maxResponse := 16 }
    let hub : Hub := { store := .empty {} 100, fields := {}, clients := { capacity := 4 } }
    let clock : Nat → Int := fun n => 200 + n
    let events : List Happening :=
      [.arrives [2, 0], .turns 1, .takes 1, .arrives [0, 0, 19], .turns 2, .turns 2, .turns 3,
        .arrives [0, 2, 0, 0], .turns 4, .turns 4, .turns 4, .arrives [0, 255, 0, 9]]
    let done := ((Session.start 1 limits hub).follow clock events).close clock 5
    limits.maxRequest < 9223372036854775808 ∧ done.link.state = .ended (.ok ()) ∧
      done.requests = [⟨.ping, []⟩, ⟨.finish, []⟩] ∧
      done.link.wire.written = (Reply.code .ok).write ++ (Reply.code .ok).write ∧
      done.hub.store.now = 201 := by
  intro limits hub clock events done
  have hmost : limits.maxRequest < 9223372036854775808 := by decide
  obtain ⟨hstate, hrequests, hwritten, hstore, -⟩ :=
    framing_ignores_arrival hmost 1 hub clock events 5
  have hping : frame? limits.maxRequest (arriving events) =
      .ok ([19, 0], [2, 0, 0, 0, 255, 0, 9]) := by
    simp [frame?, arriving, Bytes.cut?, Bytes.signedValue, Bytes.value, Bytes.wordCount, limits,
      events]
  have hfinish : frame? limits.maxRequest [2, 0, 0, 0, 255, 0, 9] = .ok ([255, 0], [9]) := by
    simp [frame?, Bytes.cut?, Bytes.signedValue, Bytes.value, Bytes.wordCount, limits]
  have hshort : frame? limits.maxRequest [9] = .error .short := rfl
  have hframes : frames limits.maxRequest (arriving events) = ([[19, 0], [255, 0]], .short) := by
    rw [frames_of_ok hping, frames_of_ok hfinish, frames_of_error hshort]
  have hpinged : Request.ofBody [19, 0] = .ok ⟨.ping, []⟩ := rfl
  have hfinished : Request.ofBody [255, 0] = .ok ⟨.finish, []⟩ := rfl
  have hwhole : Transcript.ofStream limits hub.fields clock hub.store (arriving events) =
      { requests := [⟨.ping, []⟩, ⟨.finish, []⟩]
        written := (Reply.code .ok).write ++ (Reply.code .ok).write
        store := ((hub.store.answer hub.fields 200 ⟨.ping, []⟩).2.answer hub.fields 201
          ⟨.finish, []⟩).2
        ending := .ok () } := by
    rw [Transcript.ofStream, hframes]
    simp only
    rw [Transcript.ofBodies_of_answered hpinged (by decide) (by decide),
      Transcript.ofBodies_of_finish hfinished (by decide) rfl]
    rfl
  rw [hwhole] at hstate hrequests hwritten hstore
  have hdone : done = ((Session.start 1 limits hub).follow clock events).close clock 5 := rfl
  rw [hdone]
  exact ⟨hmost, hstate, hrequests, hwritten, congrArg Store.now hstore⟩

end PrefixCache

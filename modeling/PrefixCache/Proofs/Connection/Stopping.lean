import PrefixCache.Proofs.Connection.Balance
import PrefixCache.Proofs.Connection.Transcript
/-!
# A stop cuts nothing short

That the server stops matters to a link at one point only, between two
requests with nothing read of the next (`Link.step_of_idle`); anywhere else
a turn is what it would have been (`Link.step_of_busy`). A visit is a link
among others, whose server may come to stop at any moment. Whatever happens
in its course, what is answered are frames of the stream, and a link that
has ended has sent every reply within bounds (`Visit.Sound`). So a stop
discards nothing that was read, and cuts no request short
(`stopping_cuts_nothing_short`).
-/

namespace PrefixCache

/-! ## Frames that are answered -/

/-- The request stands in a stream as a frame. -/
def Request.Framed (most : Nat) (r : Request) : Prop :=
  ∀ rest : Bytes, frame? most (r.frame ++ rest) = .ok (r.body, rest)

/-- If a body is awaited, any body of that length completes a frame. -/
def Phase.Announces (most : Nat) : Phase → Prop
  | .awaitingBody length => ∀ body rest : Bytes, body.length = length →
      frame? most (Bytes.word Connection.lengthWidth length ++ (body ++ rest)) = .ok (body, rest)
  | _ => True

/-- An allowed length announces a body. -/
theorem Phase.announces_of_length {most : Nat} {word : Bytes} {length : Int}
    (hword : word.length = Connection.lengthWidth)
    (hlength : Bytes.signedValue Connection.lengthWidth word = length)
    (hleast : Connection.shortestRequest ≤ length) (hbound : length ≤ most) :
    (Phase.awaitingBody length.toNat).Announces most := by
  intro body rest hbody
  have hsign : 0 ≤ Bytes.signedValue Connection.lengthWidth word := by
    rw [hlength]
    exact Int.le_trans (by decide) hleast
  have hheld : Bytes.word Connection.lengthWidth length.toNat = word :=
    hlength ▸ Bytes.word_signedValue hword hsign
  have hcut : Bytes.cut? 4 (word ++ (body ++ rest)) = some (word, body ++ rest) :=
    Bytes.cut?_append hword _
  have hallowed : ¬ (length < 2 ∨ (most : Int) < length) := by
    simp only [Connection.shortestRequest] at hleast
    omega
  rw [Connection.lengthWidth] at hlength
  rw [hheld]
  simp only [frame?, hcut, hlength, if_neg hallowed, Bytes.cut?_append hbody]

namespace Exchange

/-- The reply is within bounds. -/
def fits (limits : ConnectionLimits) (x : Exchange) : Bool :=
  decide (x.reply.encodedLength ≤ limits.maxResponse)

/-- **Requests that stand in a stream as frames are its first frames.** -/
theorem bodies_prefix_frames {most : Nat} {xs : List Exchange} {stream : Bytes}
    (hframed : ∀ x ∈ xs, x.request.Framed most) (htaken : asked xs <+: stream) :
    (xs.map fun x => x.request.body) <+: (frames most stream).1 := by
  induction xs generalizing stream with
  | nil => exact List.nil_prefix
  | cons x xs ih =>
    obtain ⟨rest, rfl⟩ := htaken
    have hfirst : frame? most (asked (x :: xs) ++ rest) =
        .ok (x.request.body, asked xs ++ rest) := by
      have hframe := hframed x List.mem_cons_self (asked xs ++ rest)
      rwa [← List.append_assoc] at hframe
    rw [frames_of_ok hfirst, List.map_cons, List.cons_prefix_cons]
    exact ⟨rfl, ih (fun y hy => hframed y (List.mem_cons_of_mem x hy)) (List.prefix_append _ _)⟩

end Exchange

namespace Link

namespace View

variable {limits : ConnectionLimits} {fields : FieldLimits} {wall : Int} {v v' : View}
variable {asked : Option Request} {w : Wire} {notice : Notice} {e : Ending} {store : Store}
variable {stream : Bytes} {xs : List Exchange}

/-- A body that was announced makes its request a frame. -/
theorem framed_of_announced {most length : Nat} {body : Bytes} {r : Request}
    (h : v.phase.Announces most) (hphase : v.phase = .awaitingBody length)
    (hbody : body.length = length) (hr : Request.ofBody body = .ok r) : r.Framed most := by
  intro rest
  have hannounced := hphase ▸ h
  rw [← held_append_body hphase hbody hr, hphase, Request.body_of_ofBody hr, List.append_assoc]
  exact hannounced body rest hbody

/-- What a turn that goes on answers was announced, its reply is within
bounds, and what it awaits then is announced. -/
theorem Next.announced (hnext : Next limits fields wall v asked v')
    (h : v.phase.Announces limits.maxRequest) :
    v'.phase.Announces limits.maxRequest ∧
      ∀ x ∈ v.store.exchanged fields wall asked,
        x.request.Framed limits.maxRequest ∧ x.fits limits = true := by
  cases hnext with
  | rests => exact ⟨h, by simp⟩
  | takesLength hphase hunread hword hlength hleast hbound =>
    exact ⟨Phase.announces_of_length hword hlength hleast
      (Int.le_trans hbound (signed64_le _)), by simp⟩
  | answers hphase hunread hbody hr hfits =>
    refine ⟨trivial, fun x hx => ?_⟩
    obtain rfl := List.mem_singleton.1 hx
    exact ⟨framed_of_announced h hphase hbody hr, decide_eq_true hfits⟩
  | sends hphase hreply => exact ⟨h, by simp⟩
  | completes hphase hreply => exact ⟨trivial, by simp⟩

/-- What a turn that ends the link answers was announced, but its reply is
out of bounds. -/
theorem Halts.announced (hhalts : Halts limits fields wall w notice v asked e store)
    (h : v.phase.Announces limits.maxRequest) :
    ∀ x ∈ v.store.exchanged fields wall asked,
      x.request.Framed limits.maxRequest ∧ x.fits limits = false := by
  cases hhalts with
  | tooLarge hphase hunread hbody hr hlarge =>
    intro x hx
    obtain rfl := List.mem_singleton.1 hx
    exact ⟨framed_of_announced h hphase hbody hr, decide_eq_false (Nat.not_le_of_lt hlarge)⟩
  | _ => simp

/-- **A link whose streams are intact ends with all sent** that it has
answered before. -/
theorem Halts.written_eq (hhalts : Halts limits fields wall w notice v asked e store)
    (h : v.Balances stream xs) (hinput : ∀ why, w.input ≠ .broken why)
    (hroom : ∀ why, w.room ≠ .broken why) : v.written = Exchange.answered xs := by
  have hnothing (hunsent : v.unsent = []) : v.written = Exchange.answered xs := by
    rw [h.given, hunsent, List.append_nil]
  cases hhalts with
  | closes hphase hreply => exact hnothing ((unsent_of_sending hphase).trans hreply)
  | badLength hphase => exact hnothing (unsent_of_awaitingLength hphase)
  | badBody hphase => exact hnothing (unsent_of_awaitingBody hphase)
  | tooLarge hphase => exact hnothing (unsent_of_awaitingBody hphase)
  | stops hphase => exact hnothing (unsent_of_awaitingLength hphase)
  | runsOut _ hphase => exact hnothing (unsent_of_awaitingLength hphase)
  | breaksOff _ hphase => exact hnothing (unsent_of_awaitingBody hphase)
  | fails why hbroken =>
    exact hbroken.elim (fun hb => absurd hb (hinput why)) fun hb => absurd hb (hroom why)

end View

/-- The link waits for its stream. -/
def waits (l : Link) (h : Hub) (notice : Notice) (m : Moment) : Bool :=
  match l.state, turn l.connection l.wire h notice m with
  | .running, .waits => true
  | _, _ => false

/-! ## When a stop matters -/

variable {l : Link} {c : Connection} {notice : Notice}

theorem turn_of_idle (hidle : c.Idle) (hnotice : notice ≠ .running) (w : Wire) (h : Hub)
    (m : Moment) : turn c w h notice m = .ends (.ok ()) w h := by
  have hcut : c.buffer.cut? Connection.lengthWidth = none :=
    ReadBuffer.cut?_eq_none.2 (by rw [hidle.2]; decide)
  have hwaits : c.turn h m = .needsInput := by
    simp only [Connection.turn, hidle.1, hcut]
  simp only [turn, hwaits, input, if_pos (And.intro hidle hnotice)]

theorem turn_of_busy (hbusy : ¬ c.Idle) (w : Wire) (h : Hub) (notice : Notice) (m : Moment) :
    turn c w h notice m = turn c w h .running m := by
  have hinput : input c w h notice m.tick = input c w h .running m.tick := by
    simp only [input, hbusy, false_and, if_false]
  simp only [turn, hinput]

/-- **Between two requests a stop ends a link** where it is. -/
theorem step_of_idle (hrun : l.state = .running) (hidle : l.connection.Idle)
    (hnotice : notice ≠ .running) (h : Hub) (m : Moment) :
    l.step h notice m = ({ l with state := .ended (.ok ()) }, h) := by
  simp only [step, hrun, runFor, turn_of_idle hidle hnotice]

/-- **Anywhere else a stop does not matter.** -/
theorem step_of_busy (hbusy : ¬ l.connection.Idle) (h : Hub) (notice : Notice) (m : Moment) :
    l.step h notice m = l.step h .running m := by
  simp only [step, runFor, turn_of_busy hbusy _ _ notice]

end Link

/-! ## Visits -/

/-- What can happen to a link among others, while its server may come to
stop. -/
inductive Incident where
  /-- A piece of the stream arrives. -/
  | arrives (piece : Bytes)
  /-- The stream is over. -/
  | inputEnds
  /-- The stream takes so many bytes. -/
  | takes (n : Nat)
  | takesAll
  /-- The server says that it stops. -/
  | stops
  /-- Others have worked, and this is the hub they leave. -/
  | elsewhere (hub : Hub)
  /-- The link takes a turn. -/
  | turns (m : Moment)
  /-- A link that has waited turns to its stream before it looks up whether
  the server stops. -/
  | wakes (m : Moment)

/-- A link with its hub, whether the server has said that it stops, what
was delivered to the link, and what it has answered. -/
structure Visit where
  link : Link
  hub : Hub
  stopped : Bool := false
  /-- The link waits for its stream. -/
  waiting : Bool := false
  stream : Bytes := []
  exchanges : List Exchange := []

namespace Visit

/-- A visit that begins. -/
def start (client : ClientId) (limits : ConnectionLimits) (hub : Hub) : Visit :=
  { link := { connection := { client, limits } }, hub }

/-- What the link can find out about the server. -/
def notice (v : Visit) : Notice := if v.stopped then .stopping else .running

/-- Lets the link take one turn, with what it has found out. -/
def turn (notice : Notice) (m : Moment) (v : Visit) : Visit :=
  { v with
    link := (v.link.step v.hub notice m).1
    hub := (v.link.step v.hub notice m).2
    waiting := v.link.waits v.hub notice m
    exchanges := v.exchanges ++ v.hub.store.exchanged v.hub.fields m.wall v.link.asked? }

/-- What happens. -/
def happen (v : Visit) : Incident → Visit
  | .arrives piece =>
    if v.link.wire.input = .live then
      { v with link := v.link.deliver piece, stream := v.stream ++ piece }
    else v
  | .inputEnds => { v with link := v.link.setInput .ended }
  | .takes n => { v with link := v.link.setRoom (.bytes n) }
  | .takesAll => { v with link := v.link.setRoom .unlimited }
  | .stops => { v with stopped := true }
  | .elsewhere hub => { v with hub }
  | .turns m => v.turn v.notice m
  | .wakes m => if v.waiting then v.turn .running m else v

/-- What happens one after the other. -/
def follow (v : Visit) (events : List Incident) : Visit := events.foldl happen v

/-- The books of a visit: those of its link, whose streams are intact. Its
link awaits only what was announced, and has answered only frames; while it
runs every reply is within bounds, and once it has ended those within
bounds have left. -/
structure Sound (limits : ConnectionLimits) (v : Visit) : Prop where
  books : v.link.Balances v.stream v.exchanges
  limits_eq : v.link.connection.limits = limits
  input (why : String) : v.link.wire.input ≠ .broken why
  room (why : String) : v.link.wire.room ≠ .broken why
  framed : ∀ x ∈ v.exchanges, x.request.Framed limits.maxRequest
  announced : v.link.state = .running → v.link.connection.phase.Announces limits.maxRequest
  fitting : v.link.state = .running → ∀ x ∈ v.exchanges, x.fits limits = true
  finished (e : Ending) : v.link.state = .ended e →
    v.link.wire.written = Exchange.answered (v.exchanges.filter (·.fits limits))

variable {limits : ConnectionLimits} {v : Visit}

theorem sound_start (client : ClientId) (limits : ConnectionLimits) (hub : Hub) :
    (start client limits hub).Sound limits where
  books := .start client limits
  limits_eq := rfl
  input _ := nofun
  room _ := nofun
  framed := nofun
  announced _ := trivial
  fitting _ := nofun
  finished _ := nofun

/-- A turn that the link does not take changes nothing but whether it
waits. -/
theorem turn_of_not_running (hrun : v.link.state ≠ .running) (notice : Notice) (m : Moment) :
    v.turn notice m = { v with waiting := v.link.waits v.hub notice m } := by
  simp only [turn, Link.step_of_not_running _ _ _ hrun, Link.asked?_of_not_running hrun,
    Store.exchanged_none, List.append_nil]

/-- **What a turn of a visit does**: it goes on, it waits, or it ends the
link. -/
theorem turn_cases (hrun : v.link.state = .running) (notice : Notice) (m : Moment) :
    (∃ c w hub, Link.turn v.link.connection v.link.wire v.hub notice m = .goesOn c w hub ∧
      v.turn notice m = { v with
        link := { connection := c, wire := w }
        hub
        waiting := false
        exchanges := v.exchanges ++
          v.hub.store.exchanged v.hub.fields m.wall v.link.connection.asked? }) ∨
    v.turn notice m = { v with waiting := true } ∨
    (∃ e w hub, Link.turn v.link.connection v.link.wire v.hub notice m = .ends e w hub ∧
      v.turn notice m = { v with
        link := { connection := v.link.connection, wire := w, state := .ended e }
        hub
        waiting := false
        exchanges := v.exchanges ++
          v.hub.store.exchanged v.hub.fields m.wall v.link.connection.asked? }) := by
  have hasked := Link.asked?_of_running hrun
  rcases Link.step_cases v.hub notice m hrun with
    ⟨c, w, hub, ht, hstep⟩ | ⟨ht, hstep⟩ | ⟨e, w, hub, ht, hstep⟩
  · refine .inl ⟨c, w, hub, ht, ?_⟩
    simp only [turn, hstep, hasked, Link.waits, hrun, ht]
  · refine .inr (.inl ?_)
    simp only [turn, hstep, hasked, Link.waits, hrun, ht, Link.asked?_of_waits ht,
      Store.exchanged_none, List.append_nil]
  · refine .inr (.inr ⟨e, w, hub, ht, ?_⟩)
    simp only [turn, hstep, hasked, Link.waits, hrun, ht]

namespace Sound

/-- The books are about the link, its stream and its exchanges alone. -/
theorem congr {v' : Visit} (h : v.Sound limits) (hlink : v'.link = v.link)
    (hstream : v'.stream = v.stream) (hexchanges : v'.exchanges = v.exchanges) :
    v'.Sound limits := by
  obtain ⟨link, hub, stopped, waiting, stream, exchanges⟩ := v'
  simp only at hlink hstream hexchanges
  subst hlink hstream hexchanges
  exact ⟨h.books, h.limits_eq, h.input, h.room, h.framed, h.announced, h.fitting, h.finished⟩

/-- How an intact stream goes on, and how much it takes, does not matter. -/
theorem rewire (h : v.Sound limits) {input : Input} {room : Room}
    (hinput : ∀ why, input ≠ .broken why) (hroom : ∀ why, room ≠ .broken why) :
    Sound limits { v with link := { v.link with wire := { v.link.wire with input, room } } } :=
  ⟨h.books.rewire input room, h.limits_eq, hinput, hroom, h.framed, h.announced, h.fitting,
    h.finished⟩

theorem setRoom (h : v.Sound limits) {room : Room} (hroom : ∀ why, room ≠ .broken why) :
    Sound limits { v with link := v.link.setRoom room } := by
  unfold Link.setRoom
  split
  · exact h
  · exact h.rewire h.input hroom

/-- **A turn keeps the books**, whatever the link has found out. -/
theorem turn (h : v.Sound limits) (notice : Notice) (m : Moment) :
    (v.turn notice m).Sound limits := by
  by_cases hrun : v.link.state = .running
  · have hbooks : (v.turn notice m).link.Balances (v.turn notice m).stream
        (v.turn notice m).exchanges := h.books.step v.hub notice m
    have hannounced : (Link.view v.link.connection v.link.wire v.hub).phase.Announces
        limits.maxRequest := h.announced hrun
    rcases turn_cases hrun notice m with
      ⟨c, w, hub, ht, heq⟩ | heq | ⟨e, w, hub, ht, heq⟩
    · obtain ⟨hnext, hcont⟩ := Link.turn_goesOn ht
      rw [h.limits_eq] at hnext
      obtain ⟨hnow, hnew⟩ := hnext.announced hannounced
      rw [heq] at hbooks ⊢
      refine ⟨hbooks, hcont.limits.trans h.limits_eq, fun why => ?_,
        fun why hb => h.room why (hcont.broken why hb), ?_, fun _ => hnow, fun _ => ?_, nofun⟩
      · rw [hcont.input]
        exact h.input why
      · exact List.forall_mem_append.2 ⟨h.framed, fun x hx => (hnew x hx).1⟩
      · exact List.forall_mem_append.2 ⟨h.fitting hrun, fun x hx => (hnew x hx).2⟩
    · rw [heq]
      exact h.congr rfl rfl rfl
    · obtain ⟨hhalts, -, rfl⟩ := Link.turn_ends ht
      rw [h.limits_eq] at hhalts
      have hnew := hhalts.announced hannounced
      have hsent := hhalts.written_eq (h.books.running v.hub hrun) h.input h.room
      rw [heq] at hbooks ⊢
      refine ⟨hbooks, h.limits_eq, h.input, h.room, ?_, nofun, nofun, fun _ _ => ?_⟩
      · exact List.forall_mem_append.2 ⟨h.framed, fun x hx => (hnew x hx).1⟩
      · -- all replies before were within bounds, and one to a last request is not
        have hbefore : v.exchanges.filter (·.fits limits) = v.exchanges :=
          List.filter_eq_self.2 (h.fitting hrun)
        have hlast : (v.hub.store.exchanged v.hub.fields m.wall v.link.connection.asked?).filter
            (·.fits limits) = [] :=
          List.filter_eq_nil_iff.2 fun x hx => by simp [(hnew x hx).2]
        rw [List.filter_append, hbefore, hlast, List.append_nil]
        exact hsent
  · rw [turn_of_not_running hrun]
    exact h.congr rfl rfl rfl

/-- **Nothing that happens upsets the books.** -/
theorem happen (h : v.Sound limits) (e : Incident) : (v.happen e).Sound limits := by
  cases e with
  | arrives piece =>
    simp only [Visit.happen]
    split
    · exact ⟨h.books.deliver piece, h.limits_eq, h.input, h.room, h.framed, h.announced, h.fitting,
        h.finished⟩
    · exact h
  | inputEnds =>
    simp only [Visit.happen, Link.setInput]
    split
    · exact h
    · exact h.rewire (fun _ => Input.noConfusion) h.room
  | takes n => exact h.setRoom fun _ => Room.noConfusion
  | takesAll => exact h.setRoom fun _ => Room.noConfusion
  | stops => exact h.congr rfl rfl rfl
  | elsewhere hub => exact h.congr rfl rfl rfl
  | turns m => exact h.turn _ m
  | wakes m =>
    simp only [Visit.happen]
    split
    · exact h.turn _ m
    · exact h

theorem follow (h : v.Sound limits) (events : List Incident) : (v.follow events).Sound limits := by
  induction events generalizing v with
  | nil => exact h
  | cons e events ih => exact ih (h.happen e)

end Sound

/-- A turn that finds nothing of a request there is the last one once the
server has said that it stops. -/
theorem turn_of_idle (hrun : v.link.state = .running) (hidle : v.link.connection.Idle)
    (hstopped : v.stopped = true) (m : Moment) :
    v.turn v.notice m =
      { v with link := { v.link with state := .ended (.ok ()) }, waiting := false } := by
  have hnotice : v.notice = .stopping := by simp only [notice, hstopped, if_true]
  have hstopping : v.notice ≠ .running := by
    rw [hnotice]
    exact Notice.noConfusion
  simp only [turn, Link.step_of_idle hrun hidle hstopping, Link.waits, hrun,
    Link.turn_of_idle hidle hstopping, Link.asked?_of_running hrun,
    Connection.asked?_of_awaitingLength hidle.1, Store.exchanged_none, List.append_nil]

/-- Any other turn is what it would be if the server had not said so. -/
theorem turn_of_busy (hbusy : ¬ (v.stopped = true ∧ v.link.connection.Idle)) (m : Moment) :
    v.turn v.notice m = v.turn .running m := by
  by_cases hstopped : v.stopped = true
  · have hlink : ¬ v.link.connection.Idle := fun hidle => hbusy ⟨hstopped, hidle⟩
    simp only [turn, Link.step_of_busy hlink, Link.waits, Link.turn_of_busy hlink]
  · simp only [notice, hstopped]
    rfl

end Visit

/-- **A stop cuts nothing short.** In whatever pieces a stream arrives,
however the bytes leave, whatever others do, and whenever the server says
that it stops, if it ever does: the requests that a link answers are, in
order, the first frames of its stream; and once it has ended, it has sent
all replies that are within bounds, and nothing else. When the server has
said so and a link takes a turn with nothing read of a next request, that
turn ends it without a fault and changes nothing else; all that was read is
answered and all answers are sent, and the rest of the stream was not
touched. Any other turn is what it would be if the server had not said
so. -/
theorem stopping_cuts_nothing_short (client : ClientId) (limits : ConnectionLimits) (hub : Hub)
    (events : List Incident) :
    let v := (Visit.start client limits hub).follow events
    (v.exchanges.map fun x => x.request.body) <+: (frames limits.maxRequest v.stream).1 ∧
    (∀ e, v.link.state = .ended e → v.link.wire.written =
      Exchange.answered (v.exchanges.filter fun x =>
        decide (x.reply.encodedLength ≤ limits.maxResponse))) ∧
    (v.link.state = .running → ∀ m,
      if v.stopped = true ∧ v.link.connection.Idle then
        v.turn v.notice m =
          { v with link := { v.link with state := .ended (.ok ()) }, waiting := false } ∧
        v.stream = Exchange.asked v.exchanges ++ v.link.wire.arrived.toBytes ∧
        v.link.wire.written = Exchange.answered v.exchanges
      else v.turn v.notice m = v.turn .running m) := by
  intro v
  have h : v.Sound limits := (Visit.sound_start client limits hub).follow events
  refine ⟨Exchange.bodies_prefix_frames h.framed h.books.taken, h.finished, fun hrun m => ?_⟩
  split
  · next hstops =>
    obtain ⟨hstopped, hidle⟩ := hstops
    refine ⟨Visit.turn_of_idle hrun hidle hstopped m, ?_, h.books.complete hidle.1⟩
    have hpending : v.link.connection.buffer.pending.toBytes = [] :=
      List.length_eq_zero_iff.1 ((ByteQueue.size_eq_length _).symm.trans hidle.2)
    rw [h.books.stream_eq hrun v.hub, Link.unused, hidle.1, hpending]
    rfl
  · next hbusy => exact Visit.turn_of_busy hbusy m

/-- A link whose server stops while half a length has arrived. The rest of the
request follows, and so many turns. -/
def Incident.halfAnnounced (turns : Nat) : List Incident :=
  let turn : Incident := .turns { wall := 200, tick := 1 }
  [.arrives [2, 0], turn, turn, .stops, .arrives [0, 0, 19, 0]] ++ List.replicate turns turn

/-- A hub that nobody has come to. -/
def Hub.quiet : Hub := { store := .empty {} 100, fields := {}, clients := { capacity := 4 } }

/-- A request of which half the length was read is answered all the same.
Turns go on as if the server had not stopped, until the reply has left and
nothing is read of a next request; then one turn more ends the link. -/
theorem half_announced_request_is_answered :
    let m : Moment := { wall := 200, tick := 1 }
    let half := (Visit.start 1 {} .quiet).follow (Incident.halfAnnounced 0)
    let served := (Visit.start 1 {} .quiet).follow (Incident.halfAnnounced 5)
    half.notice = .stopping ∧ half.turn .stopping m = half.turn .running m ∧
      served.notice = .stopping ∧ served.turn .stopping m =
        { served with link := { served.link with state := .ended (.ok ()) }, waiting := false } ∧
      served.link.wire.written = (Reply.code .ok).write := by
  intro m half served
  have hgoing : half.link.state = .running := rfl
  have hbusy : ¬ (half.stopped = true ∧ half.link.connection.Idle) := by decide +kernel
  have hturn := (stopping_cuts_nothing_short 1 {} .quiet (Incident.halfAnnounced 0)).2.2 hgoing m
  rw [if_neg hbusy] at hturn
  have hstays : served.link.state = .running := rfl
  have hidle : served.stopped = true ∧ served.link.connection.Idle := by decide +kernel
  have hlast := (stopping_cuts_nothing_short 1 {} .quiet (Incident.halfAnnounced 5)).2.2 hstays m
  rw [if_pos hidle] at hlast
  obtain ⟨hends, -, hwritten⟩ := hlast
  refine ⟨rfl, hturn, rfl, hends, hwritten.trans ?_⟩
  decide +kernel

end PrefixCache

import PrefixCache.Connection.Link
/-!
# Turns of a link

A turn of a link moves bytes between the wire, the buffer and the reply,
and at times it answers a request. Seen from outside (`Link.View`) less
happens: the bytes that are not used up get shorter in front, those that
have left get longer behind, and the store changes by answering. A turn
that goes on does one of five things (`View.Next`), and one that ends the
link has one of eight causes (`View.Halts`). Everything else about turns is
read off these two (`turn_goesOn`, `turn_ends`).
-/

namespace PrefixCache

/-! ## Answering -/

/-- Answers a request at a time. -/
def Store.answer (s : Store) (fields : FieldLimits) (wall : Int) (r : Request) : Reply × Store :=
  (s.setClock wall).dispatch fields r

theorem ReadBuffer.cut?_eq_none {n : Nat} {b : ReadBuffer} :
    b.cut? n = none ↔ b.pending.size < n := by
  unfold cut? ByteQueue.cut?
  by_cases h : n ≤ b.pending.size
  · simp [h]
  · simp [h, Nat.lt_of_not_le h]

/-- The request that the next turn of a connection answers. -/
def Connection.asked? (c : Connection) : Option Request :=
  match c.phase with
  | .awaitingBody length =>
    (c.buffer.cut? length).bind fun (body, _) => (Request.ofBody body).toOption
  | _ => none

/-- Between two requests nothing is answered. -/
theorem Connection.asked?_of_awaitingLength {c : Connection} (hp : c.phase = .awaitingLength) :
    c.asked? = none := by
  rw [asked?, hp]

/-- While a reply is being sent nothing is answered. -/
theorem Connection.asked?_of_sending {c : Connection} {closing : Bool}
    (hp : c.phase = .sending closing) : c.asked? = none := by
  rw [asked?, hp]

theorem Connection.asked?_of_cut {c : Connection} {length : Nat} {body : Bytes} {rest : ReadBuffer}
    (hp : c.phase = .awaitingBody length) (hcut : c.buffer.cut? length = some (body, rest)) :
    c.asked? = (Request.ofBody body).toOption := by
  simp only [asked?, hp, hcut, Option.bind_some]

/-- A connection needs input while too little of a length or of a body is
there. -/
theorem Connection.short_of_needsInput {c : Connection} {h : Hub} {m : Moment}
    (ht : c.turn h m = .needsInput) :
    (c.phase = .awaitingLength ∧ c.buffer.pending.size < lengthWidth) ∨
      ∃ length, c.phase = .awaitingBody length ∧ c.buffer.pending.size < length := by
  unfold turn at ht
  split at ht
  · next hp =>
    split at ht
    · next hcut => exact .inl ⟨hp, ReadBuffer.cut?_eq_none.1 hcut⟩
    · unfold takeLength at ht
      split at ht <;> cases ht
  · next length hp =>
    split at ht
    · next hcut => exact .inr ⟨length, hp, ReadBuffer.cut?_eq_none.1 hcut⟩
    · unfold takeBody at ht
      split at ht
      · cases ht
      · simp only at ht
        split at ht <;> cases ht
  · split at ht
    · unfold afterReply at ht
      simp only at ht
      split at ht <;> cases ht
    · cases ht

theorem Connection.asked?_of_needsInput {c : Connection} {h : Hub} {m : Moment}
    (ht : c.turn h m = .needsInput) : c.asked? = none := by
  unfold asked?
  rcases short_of_needsInput ht with ⟨hp, -⟩ | ⟨length, hp, hsize⟩
  · rw [hp]
  · simp only [hp, ReadBuffer.cut?_eq_none.2 hsize, Option.bind_none]

/-- A connection needs output while it sends a reply. -/
theorem Connection.sending_of_needsOutput {c : Connection} {h : Hub} {m : Moment}
    (ht : c.turn h m = .needsOutput) : ∃ closing, c.phase = .sending closing := by
  unfold turn at ht
  split at ht
  · split at ht
    · cases ht
    · unfold takeLength at ht
      split at ht <;> cases ht
  · split at ht
    · cases ht
    · unfold takeBody at ht
      split at ht
      · cases ht
      · simp only at ht
        split at ht <;> cases ht
  · next closing hp => exact ⟨closing, hp⟩

/-! ## Views -/

namespace Link

/-- A running link as it looks from outside: how far it is between two
requests, the two streams, and the store. -/
structure View where
  phase : Phase
  /-- What has arrived and is not used up. -/
  unread : Bytes
  /-- What is left of the reply. -/
  reply : Bytes
  written : Bytes
  store : Store

/-- The view of a link. -/
def view (c : Connection) (w : Wire) (h : Hub) : View :=
  { phase := c.phase
    unread := c.buffer.pending.toBytes ++ w.arrived.toBytes
    reply := c.reply
    written := w.written
    store := h.store }

namespace View

/-- What is still to be sent. -/
def unsent (v : View) : Bytes :=
  match v.phase with
  | .sending _ => v.reply
  | _ => []

variable {v : View}

theorem unsent_of_sending {closing : Bool} (h : v.phase = .sending closing) :
    v.unsent = v.reply := by
  rw [unsent, h]

theorem unsent_of_awaitingLength (h : v.phase = .awaitingLength) : v.unsent = [] := by
  rw [unsent, h]

theorem unsent_of_awaitingBody {length : Nat} (h : v.phase = .awaitingBody length) :
    v.unsent = [] := by
  rw [unsent, h]

end View

variable (limits : ConnectionLimits) (fields : FieldLimits) (wall : Int)

/-- **What a turn that goes on does**, and the request it answers. -/
inductive View.Next : View → Option Request → View → Prop
  /-- Bytes move into the buffer, or room is made for them. -/
  | rests (v : View) : Next v none v
  /-- An allowed length is taken. -/
  | takesLength {v : View} {word rest : Bytes} {length : Int} : v.phase = .awaitingLength →
      v.unread = word ++ rest → word.length = Connection.lengthWidth →
      Bytes.signedValue Connection.lengthWidth word = length →
      Connection.shortestRequest ≤ length → length ≤ signed64 limits.maxRequest →
      Next v none { v with phase := .awaitingBody length.toNat, unread := rest }
  /-- A body is taken and answered. -/
  | answers {v : View} {length : Nat} {body rest : Bytes} {r : Request} :
      v.phase = .awaitingBody length → v.unread = body ++ rest → body.length = length →
      Request.ofBody body = .ok r →
      (v.store.answer fields wall r).1.encodedLength ≤ limits.maxResponse →
      Next v (some r) { v with
        phase := .sending (r.opcode == .finish)
        unread := rest
        reply := (v.store.answer fields wall r).1.write
        store := (v.store.answer fields wall r).2 }
  /-- Some of the reply leaves. -/
  | sends {v : View} {closing : Bool} {front rest : Bytes} : v.phase = .sending closing →
      v.reply = front ++ rest → Next v none { v with reply := rest, written := v.written ++ front }
  /-- The reply is gone, and the next request may come. -/
  | completes {v : View} : v.phase = .sending false → v.reply = [] →
      Next v none { v with phase := .awaitingLength }

/-- **What ends a link**, the request that is answered in vain, and the
store that is left. -/
inductive View.Halts (w : Wire) (notice : Notice) : View → Option Request → Ending → Store → Prop
  /-- The last reply is gone. -/
  | closes {v : View} : v.phase = .sending true → v.reply = [] → Halts w notice v none (.ok ()) v.store
  /-- A length is out of bounds. -/
  | badLength {v : View} {word rest : Bytes} {length : Int} : v.phase = .awaitingLength →
      v.unread = word ++ rest → word.length = Connection.lengthWidth →
      Bytes.signedValue Connection.lengthWidth word = length →
      ¬ (Connection.shortestRequest ≤ length ∧ length ≤ signed64 limits.maxRequest) →
      Halts w notice v none (.error (.badLength length limits.maxRequest)) v.store
  /-- A body is no request. -/
  | badBody {v : View} {length : Nat} {body rest : Bytes} {e : BodyError} :
      v.phase = .awaitingBody length → v.unread = body ++ rest → body.length = length →
      Request.ofBody body = .error e → Halts w notice v none (.error (.badBody e)) v.store
  /-- A reply is out of bounds. -/
  | tooLarge {v : View} {length : Nat} {body rest : Bytes} {r : Request} :
      v.phase = .awaitingBody length → v.unread = body ++ rest → body.length = length →
      Request.ofBody body = .ok r →
      limits.maxResponse < (v.store.answer fields wall r).1.encodedLength →
      Halts w notice v (some r)
        (.error (.replyTooLarge (v.store.answer fields wall r).1.encodedLength limits.maxResponse))
        (v.store.answer fields wall r).2
  /-- The server stops, and nothing of a request is there. -/
  | stops {v : View} : v.phase = .awaitingLength → notice ≠ .running →
      Halts w notice v none (.ok ()) v.store
  /-- The input is over before the next length. -/
  | runsOut {v : View} : w.input = .ended → v.phase = .awaitingLength →
      v.unread.length < Connection.lengthWidth → Halts w notice v none (.ok ()) v.store
  /-- The input is over within a request. -/
  | breaksOff {v : View} {length : Nat} : w.input = .ended → v.phase = .awaitingBody length →
      v.unread.length < length → Halts w notice v none (.error .unexpectedEnd) v.store
  /-- The stream fails. -/
  | fails {v : View} (why : String) : w.input = .broken why ∨ w.room = .broken why →
      Halts w notice v none (.error (.stream why)) v.store

/-- What no turn changes, or only in one direction. -/
structure Continues (c c' : Connection) (w w' : Wire) (h h' : Hub) : Prop where
  client : c'.client = c.client
  limits : c'.limits = c.limits
  fields : h'.fields = h.fields
  input : w'.input = w.input
  broken (why : String) : w'.room = .broken why → w.room = .broken why
  unlimited : w.room = .unlimited → w'.room = .unlimited

/-! ## Turns of the connection -/

section Turns

variable {c c' : Connection} {w w' : Wire} {h h' : Hub} {notice : Notice} {m : Moment} {e : Ending}

/-- What is cut off the buffer is the beginning of what is unread. -/
theorem unread_of_cut {n : Nat} {front : Bytes} {rest : ReadBuffer}
    (hcut : c.buffer.cut? n = some (front, rest)) (w : Wire) (h : Hub) :
    (view c w h).unread = front ++ (rest.pending.toBytes ++ w.arrived.toBytes) := by
  rw [view, (ReadBuffer.cut?_eq_some hcut).1, List.append_assoc]

/-- What the connection does without the wire. -/
theorem connection_goesOn (ht : c.turn h m = .goesOn c' h') :
    View.Next c.limits h.fields m.wall (view c w h) c.asked? (view c' w h') ∧
      Continues c c' w w h h' := by
  unfold Connection.turn at ht
  split at ht
  · next hp =>
    rw [Connection.asked?_of_awaitingLength hp]
    split at ht
    · cases ht
    · next word rest hcut =>
      obtain ⟨-, hword, -, -⟩ := ReadBuffer.cut?_eq_some hcut
      unfold Connection.takeLength at ht
      split at ht
      · next hallowed =>
        injection ht with e1 e2
        subst e1 e2
        exact ⟨.takesLength hp (unread_of_cut hcut w h) hword rfl hallowed.1 hallowed.2, rfl, rfl,
          rfl, rfl, fun _ => id, id⟩
      · cases ht
  · next length hp =>
    split at ht
    · cases ht
    · next body rest hcut =>
      obtain ⟨-, hbody, -, -⟩ := ReadBuffer.cut?_eq_some hcut
      rw [Connection.asked?_of_cut hp hcut]
      unfold Connection.takeBody at ht
      split at ht
      · cases ht
      · next r hr =>
        simp only at ht
        split at ht
        · cases ht
        · next hfits =>
          injection ht with e1 e2
          subst e1 e2
          rw [hr]
          exact ⟨.answers hp (unread_of_cut hcut w h) hbody hr (Nat.le_of_not_lt hfits), rfl, rfl,
            rfl, rfl, fun _ => id, id⟩
  · next closing hp =>
    rw [Connection.asked?_of_sending hp]
    split at ht
    · next hreply =>
      unfold Connection.afterReply at ht
      simp only at ht
      split at ht
      · cases ht
      · next hclosing =>
        injection ht with e1 e2
        subst e1 e2
        refine ⟨.completes ?_ hreply, rfl, rfl, rfl, rfl, fun _ => id, id⟩
        rw [Bool.not_eq_true] at hclosing
        exact hclosing ▸ hp
    · cases ht

/-- How the connection ends without the wire. -/
theorem connection_ends (w : Wire) (notice : Notice) (ht : c.turn h m = .ends e h') :
    View.Halts c.limits h.fields m.wall w notice (view c w h) c.asked? e h'.store ∧
      h'.fields = h.fields := by
  unfold Connection.turn at ht
  split at ht
  · next hp =>
    rw [Connection.asked?_of_awaitingLength hp]
    split at ht
    · cases ht
    · next word rest hcut =>
      obtain ⟨-, hword, -, -⟩ := ReadBuffer.cut?_eq_some hcut
      unfold Connection.takeLength at ht
      split at ht
      · cases ht
      · next hrefused =>
        injection ht with e1 e2
        subst e1 e2
        exact ⟨.badLength hp (unread_of_cut hcut w h) hword rfl hrefused, rfl⟩
  · next length hp =>
    split at ht
    · cases ht
    · next body rest hcut =>
      obtain ⟨-, hbody, -, -⟩ := ReadBuffer.cut?_eq_some hcut
      rw [Connection.asked?_of_cut hp hcut]
      unfold Connection.takeBody at ht
      split at ht
      · next error hr =>
        injection ht with e1 e2
        subst e1 e2
        rw [hr]
        exact ⟨.badBody hp (unread_of_cut hcut w h) hbody hr, rfl⟩
      · next r hr =>
        simp only at ht
        split at ht
        · next hlarge =>
          injection ht with e1 e2
          subst e1 e2
          rw [hr]
          exact ⟨.tooLarge hp (unread_of_cut hcut w h) hbody hr hlarge, rfl⟩
        · cases ht
  · next closing hp =>
    rw [Connection.asked?_of_sending hp]
    split at ht
    · next hreply =>
      unfold Connection.afterReply at ht
      simp only at ht
      split at ht
      · next hclosing =>
        injection ht with e1 e2
        subst e1 e2
        exact ⟨.closes (hclosing ▸ hp) hreply, rfl⟩
      · cases ht
    · cases ht

/-! ## Turns of the link -/

/-- **A turn that goes on** does what `Next` says. -/
theorem turn_goesOn (ht : turn c w h notice m = .goesOn c' w' h') :
    View.Next c.limits h.fields m.wall (view c w h) c.asked? (view c' w' h') ∧
      Continues c c' w w' h h' := by
  unfold turn at ht
  split at ht
  · next hc =>
    injection ht with e1 e2 e3
    subst e1 e2 e3
    exact connection_goesOn hc
  · cases ht
  · next hc =>
    -- bytes move, but none gets lost or used up
    rw [Connection.asked?_of_needsInput hc]
    have hrests : ∀ v, view c w h = v → View.Next c.limits h.fields m.wall (view c w h) none v := by
      rintro v rfl
      exact .rests _
    unfold input at ht
    split at ht
    · cases ht
    · split at ht
      · injection ht with e1 e2 e3
        subst e1 e2 e3
        refine ⟨hrests _ ?_, rfl, rfl, rfl, rfl, fun _ => id, id⟩
        simp only [view, Connection.makeRoom, ReadBuffer.pending_makeRoom]
      · split at ht
        · simp only [Connection.receive] at ht
          injection ht with e1 e2 e3
          subst e1 e2 e3
          refine ⟨hrests _ ?_, rfl, rfl, rfl, rfl, fun _ => id, id⟩
          simp [view, ReadBuffer.fill, Hub.touch, Wire.written]
        · split at ht <;> cases ht
  · next hc =>
    obtain ⟨closing, hp⟩ := Connection.sending_of_needsOutput hc
    rw [Connection.asked?_of_sending hp]
    unfold output at ht
    split at ht
    · cases ht
    · next hroom =>
      injection ht with e1 e2 e3
      subst e1 e2 e3
      have hsends : View.Next c.limits h.fields m.wall (view c w h) none
          { view c w h with
            reply := c.reply.drop c.reply.length
            written := w.written ++ c.reply } :=
        .sends hp (by rw [List.drop_length]; exact (List.append_nil _).symm)
      rw [← Wire.written_write] at hsends
      exact ⟨hsends, rfl, rfl, rfl, rfl, fun _ => id, id⟩
    · cases ht
    · next n hn hroom =>
      injection ht with e1 e2 e3
      subst e1 e2 e3
      have hsends : View.Next c.limits h.fields m.wall (view c w h) none
          { view c w h with
            reply := c.reply.drop n
            written := w.written ++ c.reply.take n } :=
        .sends hp (List.take_append_drop n c.reply).symm
      rw [← Wire.written_write] at hsends
      refine ⟨hsends, rfl, rfl, rfl, rfl, fun _ hw => ?_, fun hw => ?_⟩
      · cases hw
      · rw [hroom] at hw
        cases hw

/-- What is unread when nothing is left on the wire is in the buffer. -/
theorem length_unread (harrived : ¬ 0 < w.arrived.size) :
    (view c w h).unread.length = c.buffer.pending.size := by
  rw [view, List.length_append, ← ByteQueue.size_eq_length, ← ByteQueue.size_eq_length]
  omega

/-- **A turn that ends the link** has one of the causes that `Halts` names,
and leaves the wire as it is. -/
theorem turn_ends (ht : turn c w h notice m = .ends e w' h') :
    View.Halts c.limits h.fields m.wall w notice (view c w h) c.asked? e h'.store ∧
      h'.fields = h.fields ∧ w' = w := by
  unfold turn at ht
  split at ht
  · cases ht
  · next hc =>
    injection ht with e1 e2 e3
    subst e1 e2 e3
    obtain ⟨hhalts, hfields⟩ := connection_ends w notice hc
    exact ⟨hhalts, hfields, rfl⟩
  · next hc =>
    rw [Connection.asked?_of_needsInput hc]
    have hshort := Connection.short_of_needsInput hc
    unfold input at ht
    split at ht
    · next hstop =>
      injection ht with e1 e2 e3
      subst e1 e2 e3
      exact ⟨.stops hstop.1.1 hstop.2, rfl, rfl⟩
    · split at ht
      · cases ht
      · split at ht
        · cases ht
        · next harrived =>
          have hunread : (view c w h).unread.length = c.buffer.pending.size :=
            length_unread harrived
          split at ht
          · cases ht
          · next hinput =>
            injection ht with e1 e2 e3
            subst e1 e2 e3
            rw [Connection.inputEnded]
            rcases hshort with ⟨hp, hsize⟩ | ⟨length, hp, hsize⟩
            · rw [hp]
              exact ⟨.runsOut hinput hp (hunread ▸ hsize), rfl, rfl⟩
            · rw [hp]
              exact ⟨.breaksOff hinput hp (hunread ▸ hsize), rfl, rfl⟩
          · next why hinput =>
            injection ht with e1 e2 e3
            subst e1 e2 e3
            exact ⟨.fails why (.inl hinput), rfl, rfl⟩
  · next hc =>
    obtain ⟨closing, hp⟩ := Connection.sending_of_needsOutput hc
    rw [Connection.asked?_of_sending hp]
    unfold output at ht
    split at ht
    · next why hroom =>
      injection ht with e1 e2 e3
      subst e1 e2 e3
      exact ⟨.fails why (.inr hroom), rfl, rfl⟩
    · cases ht
    · cases ht
    · cases ht

/-- A link only waits for input that may still come, or for a stream that
takes nothing now. -/
theorem of_turn_waits (ht : turn c w h notice m = .waits) :
    w.input = .live ∨ w.room = .bytes 0 := by
  unfold turn at ht
  split at ht
  · cases ht
  · cases ht
  · unfold input at ht
    split at ht
    · cases ht
    · split at ht
      · cases ht
      · split at ht
        · cases ht
        · split at ht
          · next hinput => exact .inl hinput
          · cases ht
          · cases ht
  · unfold output at ht
    split at ht
    · cases ht
    · cases ht
    · next hroom => exact .inr hroom
    · cases ht

/-- A link that waits answers nothing. -/
theorem asked?_of_waits (ht : turn c w h notice m = .waits) : c.asked? = none := by
  unfold turn at ht
  split at ht
  · cases ht
  · cases ht
  · next hc => exact Connection.asked?_of_needsInput hc
  · next hc =>
    obtain ⟨closing, hp⟩ := Connection.sending_of_needsOutput hc
    exact Connection.asked?_of_sending hp

end Turns

/-! ## Steps -/

/-- Lets a link that runs take one turn. -/
def step (l : Link) (h : Hub) (notice : Notice) (m : Moment) : Link × Hub :=
  match l.state with
  | .running => runFor notice m 1 l.connection l.wire h
  | _ => (l, h)

/-- The request that the next step of a link answers. -/
def asked? (l : Link) : Option Request :=
  match l.state with
  | .running => l.connection.asked?
  | _ => none

theorem isRunning_iff {l : Link} : l.isRunning = true ↔ l.state = .running := by
  obtain ⟨c, w, state⟩ := l
  cases state <;> simp [isRunning]

section Steps

variable {l : Link} (h : Hub) (notice : Notice) (m : Moment)

/-- **What a step of a running link is**: a turn that goes on, nothing, or
a turn that ends it. -/
theorem step_cases (hrun : l.state = .running) :
    (∃ c w h', turn l.connection l.wire h notice m = .goesOn c w h' ∧
      l.step h notice m = ({ connection := c, wire := w }, h')) ∨
    (turn l.connection l.wire h notice m = .waits ∧ l.step h notice m = (l, h)) ∨
    (∃ e w h', turn l.connection l.wire h notice m = .ends e w h' ∧
      l.step h notice m =
        ({ connection := l.connection, wire := w, state := .ended e }, h')) := by
  obtain ⟨c, w, state⟩ := l
  simp only at hrun
  subst hrun
  cases ht : turn c w h notice m with
  | goesOn c' w' h' => exact .inl ⟨c', w', h', rfl, by simp only [step, runFor, ht]⟩
  | waits => exact .inr (.inl ⟨rfl, by simp only [step, runFor, ht]⟩)
  | ends e w' h' => exact .inr (.inr ⟨e, w', h', rfl, by simp only [step, runFor, ht]⟩)

theorem step_of_not_running (hrun : l.state ≠ .running) : l.step h notice m = (l, h) := by
  unfold step
  split
  · next hstate => exact absurd hstate hrun
  · rfl

theorem asked?_of_running (hrun : l.state = .running) : l.asked? = l.connection.asked? := by
  rw [asked?, hrun]

theorem asked?_of_not_running (hrun : l.state ≠ .running) : l.asked? = none := by
  unfold asked?
  split
  · next hstate => exact absurd hstate hrun
  · rfl

end Steps

end Link

end PrefixCache

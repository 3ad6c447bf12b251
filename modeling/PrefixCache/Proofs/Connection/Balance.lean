import PrefixCache.Proofs.Connection.Turning
import PrefixCache.Proofs.Request.Fields
/-!
# The books of a link

Of the bytes that were delivered to a link every one is accounted for: it
belongs to a request that was answered, to the length of one that is
awaited, or it is not used up yet. And of the bytes that replies come to,
every one has left or is still to leave. A step keeps these books
(`Link.Balances.step`), whatever connection, shared store or notice it
meets. When a link ends they are closed: what was answered stays a
beginning of what was delivered, and what has left a beginning of the
replies.
-/

namespace PrefixCache

/-! ## Requests in a stream -/

/-- A word that does not read as a negative number is the word of that
number. -/
theorem Bytes.word_signedValue {width : Nat} {bs : Bytes} (hwidth : bs.length = width)
    (hsign : 0 ≤ signedValue width bs) : word width (signedValue width bs).toNat = bs := by
  have hlt : value bs < wordCount width := hwidth ▸ value_lt bs
  have hvalue : (signedValue width bs).toNat = value bs := by
    have hmod : (value bs : Int) % (wordCount width : Int) = value bs :=
      Int.emod_eq_of_lt (by omega) (by omega)
    unfold signedValue Int.bmod at hsign ⊢
    simp only [hmod] at hsign ⊢
    split at hsign <;> omega
  rw [hvalue, ← hwidth]
  exact word_value bs

/-- A request as it stands in a stream. -/
def Request.frame (r : Request) : Bytes :=
  Bytes.word Connection.lengthWidth r.body.length ++ r.body

/-! ## Exchanges -/

/-- A request and the reply to it. -/
structure Exchange where
  request : Request
  reply : Reply
  deriving DecidableEq

namespace Exchange

/-- The requests of exchanges, as they stand in a stream. -/
def asked (xs : List Exchange) : Bytes := xs.flatMap fun x => x.request.frame

/-- The replies of exchanges, one after the other. -/
def answered (xs : List Exchange) : Bytes := xs.flatMap fun x => x.reply.write

@[simp] theorem asked_append (xs ys : List Exchange) : asked (xs ++ ys) = asked xs ++ asked ys :=
  List.flatMap_append

@[simp] theorem answered_append (xs ys : List Exchange) :
    answered (xs ++ ys) = answered xs ++ answered ys :=
  List.flatMap_append

@[simp] theorem asked_singleton (x : Exchange) : asked [x] = x.request.frame :=
  List.flatMap_singleton _ x

@[simp] theorem answered_singleton (x : Exchange) : answered [x] = x.reply.write :=
  List.flatMap_singleton _ x

end Exchange

namespace Store

variable (s : Store) (fields : FieldLimits) (wall : Int)

/-- The exchanges that answering some request makes, or none. -/
def exchanged (asked : Option Request) : List Exchange :=
  asked.toList.map fun r => { request := r, reply := (s.answer fields wall r).1 }

/-- The store after answering some request, or none. -/
def answerAny : Option Request → Store
  | none => s
  | some r => (s.answer fields wall r).2

@[simp] theorem exchanged_none : s.exchanged fields wall none = [] := rfl

@[simp] theorem exchanged_some (r : Request) :
    s.exchanged fields wall (some r) = [{ request := r, reply := (s.answer fields wall r).1 }] := rfl

end Store

/-! ## Balances -/

/-- The bytes of the length whose body is awaited. -/
def Phase.held : Phase → Bytes
  | .awaitingBody length => Bytes.word Connection.lengthWidth length
  | _ => []

namespace Link

namespace View

/-- The books of a running link: `stream` was delivered to it. -/
structure Balances (v : View) (stream : Bytes) (xs : List Exchange) : Prop where
  taken : stream = Exchange.asked xs ++ (v.phase.held ++ v.unread)
  given : Exchange.answered xs = v.written ++ v.unsent

variable {limits : ConnectionLimits} {fields : FieldLimits} {wall : Int} {v v' : View}
variable {asked : Option Request} {w : Wire} {notice : Notice} {e : Ending} {store : Store}
variable {stream : Bytes} {xs : List Exchange}

theorem Next.store_eq (hnext : Next limits fields wall v asked v') :
    v'.store = v.store.answerAny fields wall asked := by
  cases hnext <;> rfl

theorem Halts.store_eq (hhalts : Halts limits fields wall w notice v asked e store) :
    store = v.store.answerAny fields wall asked := by
  cases hhalts <;> rfl

/-- A body that is answered completes its frame. -/
theorem held_append_body {length : Nat} {body : Bytes} {r : Request}
    (hphase : v.phase = .awaitingBody length) (hbody : body.length = length)
    (hr : Request.ofBody body = .ok r) : v.phase.held ++ body = r.frame := by
  rw [hphase, Phase.held, Request.frame, Request.body_of_ofBody hr, hbody]

/-- **A turn that goes on keeps the books.** -/
theorem Balances.next (h : v.Balances stream xs) (hnext : Next limits fields wall v asked v') :
    v'.Balances stream (xs ++ v.store.exchanged fields wall asked) := by
  obtain ⟨htaken, hgiven⟩ := h
  cases hnext with
  | rests =>
    rw [Store.exchanged_none, List.append_nil]
    exact ⟨htaken, hgiven⟩
  | @takesLength word rest length hphase hunread hword hlength hleast hbound =>
    have hheld : Bytes.word Connection.lengthWidth length.toNat = word := by
      have hsign : 0 ≤ Bytes.signedValue Connection.lengthWidth word := by
        rw [hlength]
        exact Int.le_trans (by decide) hleast
      rw [← hlength]
      exact Bytes.word_signedValue hword hsign
    rw [hphase, hunread] at htaken
    rw [unsent_of_awaitingLength hphase] at hgiven
    rw [Store.exchanged_none, List.append_nil]
    refine ⟨?_, hgiven⟩
    rw [htaken, Phase.held, hheld]
    rfl
  | @answers length body rest r hphase hunread hbody hr hfits =>
    rw [hunread, ← List.append_assoc v.phase.held, held_append_body hphase hbody hr] at htaken
    rw [unsent_of_awaitingBody hphase, List.append_nil] at hgiven
    rw [Store.exchanged_some]
    refine ⟨?_, ?_⟩
    · rw [htaken, Exchange.asked_append, Exchange.asked_singleton, List.append_assoc]
      rfl
    · rw [Exchange.answered_append, Exchange.answered_singleton, hgiven]
      rfl
  | @sends closing front rest hphase hreply =>
    rw [unsent_of_sending hphase, hreply, ← List.append_assoc] at hgiven
    rw [Store.exchanged_none, List.append_nil]
    have hrest : ({ v with reply := rest, written := v.written ++ front } : View).unsent = rest :=
      unsent_of_sending hphase
    exact ⟨htaken, by rw [hgiven, hrest]⟩
  | completes hphase hreply =>
    rw [hphase] at htaken
    rw [unsent_of_sending hphase, hreply] at hgiven
    rw [Store.exchanged_none, List.append_nil]
    exact ⟨htaken, hgiven⟩

/-- **An ending closes the books.** A request that is answered in vain was
delivered all the same, and nothing of its reply has left. -/
theorem Balances.halt (h : v.Balances stream xs)
    (hhalts : Halts limits fields wall w notice v asked e store) :
    Exchange.asked (xs ++ v.store.exchanged fields wall asked) <+: stream ∧
      v.written <+: Exchange.answered (xs ++ v.store.exchanged fields wall asked) ∧
      (v.phase = .awaitingLength →
        v.written = Exchange.answered (xs ++ v.store.exchanged fields wall asked)) := by
  obtain ⟨htaken, hgiven⟩ := h
  have hwritten : v.written <+: Exchange.answered xs := ⟨_, hgiven.symm⟩
  have hnothing : Exchange.asked (xs ++ v.store.exchanged fields wall none) <+: stream ∧
      v.written <+: Exchange.answered (xs ++ v.store.exchanged fields wall none) ∧
      (v.phase = .awaitingLength →
        v.written = Exchange.answered (xs ++ v.store.exchanged fields wall none)) := by
    rw [Store.exchanged_none, List.append_nil]
    refine ⟨⟨_, htaken.symm⟩, hwritten, fun hphase => ?_⟩
    rw [hgiven, unsent_of_awaitingLength hphase, List.append_nil]
  cases hhalts with
  | @tooLarge length body rest r hphase hunread hbody hr hlarge =>
    rw [hunread, ← List.append_assoc v.phase.held, held_append_body hphase hbody hr] at htaken
    rw [Store.exchanged_some]
    refine ⟨⟨rest, ?_⟩, hwritten.trans ?_, fun hawaits => ?_⟩
    · rw [htaken, Exchange.asked_append, Exchange.asked_singleton, List.append_assoc]
    · rw [Exchange.answered_append]
      exact List.prefix_append _ _
    · rw [hphase] at hawaits
      cases hawaits
  | _ => exact hnothing

end View

/-- The bytes delivered to a link that are not used up. A length is used
up together with its body. -/
def unused (l : Link) : Bytes :=
  l.connection.phase.held ++ (l.connection.buffer.pending.toBytes ++ l.wire.arrived.toBytes)

/-- The books of a link that may have ended. -/
structure Balances (l : Link) (stream : Bytes) (xs : List Exchange) : Prop where
  taken : Exchange.asked xs <+: stream
  given : l.wire.written <+: Exchange.answered xs
  complete : l.connection.phase = .awaitingLength → l.wire.written = Exchange.answered xs
  running (h : Hub) : l.state = .running → (view l.connection l.wire h).Balances stream xs

namespace Balances

variable {l : Link} {stream : Bytes} {xs : List Exchange}

/-- What is delivered to a running link and is not used up. -/
theorem stream_eq (h : l.Balances stream xs) (hrun : l.state = .running) (hub : Hub) :
    stream = Exchange.asked xs ++ l.unused :=
  (h.running hub hrun).taken

theorem of_view {c : Connection} {w : Wire} {h : Hub} (hb : (view c w h).Balances stream xs) :
    Balances { connection := c, wire := w } stream xs where
  taken := ⟨_, hb.taken.symm⟩
  given := ⟨_, hb.given.symm⟩
  complete hphase := by
    have hunsent : (view c w h).unsent = [] := View.unsent_of_awaitingLength hphase
    have hgiven := hb.given
    rw [hunsent, List.append_nil] at hgiven
    exact hgiven.symm
  running _ _ := ⟨hb.taken, hb.given⟩

/-- The books of a link that begins are empty. -/
theorem start (client : ClientId) (limits : ConnectionLimits) :
    Balances { connection := { client, limits } } [] [] where
  taken := List.nil_prefix
  given := List.nil_prefix
  complete _ := rfl
  running _ _ := ⟨rfl, rfl⟩

/-- **A step keeps the books.** -/
theorem step (h : l.Balances stream xs) (hub : Hub) (notice : Notice) (m : Moment) :
    (l.step hub notice m).1.Balances stream
      (xs ++ hub.store.exchanged hub.fields m.wall l.asked?) := by
  by_cases hrun : l.state = .running
  · have hview := h.running hub hrun
    rw [asked?_of_running hrun]
    rcases step_cases hub notice m hrun with
      ⟨c, w, hub', ht, heq⟩ | ⟨ht, heq⟩ | ⟨e, w, hub', ht, heq⟩
    · rw [heq]
      exact of_view (hview.next (turn_goesOn ht).1)
    · rw [heq, asked?_of_waits ht, Store.exchanged_none, List.append_nil]
      exact h
    · obtain ⟨hhalts, -, rfl⟩ := turn_ends ht
      obtain ⟨htaken, hgiven, hcomplete⟩ := hview.halt hhalts
      rw [heq]
      exact ⟨htaken, hgiven, hcomplete, fun _ hstate => nomatch hstate⟩
  · rw [step_of_not_running _ _ _ hrun, asked?_of_not_running hrun, Store.exchanged_none,
      List.append_nil]
    exact h

/-- Bytes that are delivered are not used up yet. -/
theorem deliver (h : l.Balances stream xs) (piece : Bytes) :
    (l.deliver piece).Balances (stream ++ piece) xs where
  taken := h.taken.trans (List.prefix_append _ _)
  given := h.given
  complete := h.complete
  running hub hrun := by
    refine ⟨?_, (h.running hub hrun).given⟩
    rw [(h.running hub hrun).taken]
    simp [view, Link.deliver]

/-- How a stream goes on, and how much it takes, does not matter. -/
theorem rewire (h : l.Balances stream xs) (input : Input) (room : Room) :
    Balances { l with wire := { l.wire with input, room } } stream xs where
  taken := h.taken
  given := h.given
  complete := h.complete
  running hub hrun := ⟨(h.running hub hrun).taken, (h.running hub hrun).given⟩

theorem setInput (h : l.Balances stream xs) (input : Input) :
    (l.setInput input).Balances stream xs := by
  unfold Link.setInput
  split
  · exact h
  · exact h.rewire input l.wire.room

theorem setRoom (h : l.Balances stream xs) (room : Room) :
    (l.setRoom room).Balances stream xs := by
  unfold Link.setRoom
  split
  · exact h
  · exact h.rewire l.wire.input room

theorem abort (h : l.Balances stream xs) : l.abort.Balances stream xs := by
  unfold Link.abort
  split
  · exact ⟨h.taken, h.given, h.complete, fun _ hstate => nomatch hstate⟩
  · exact h

end Balances

/-- **A step changes the store only by answering.** -/
theorem step_store (l : Link) (h : Hub) (notice : Notice) (m : Moment) :
    (l.step h notice m).2.store = h.store.answerAny h.fields m.wall l.asked? ∧
      (l.step h notice m).2.fields = h.fields := by
  by_cases hrun : l.state = .running
  · rw [asked?_of_running hrun]
    rcases step_cases h notice m hrun with ⟨c, w, h', ht, heq⟩ | ⟨ht, heq⟩ | ⟨e, w, h', ht, heq⟩
    · obtain ⟨hnext, hcont⟩ := turn_goesOn ht
      rw [heq]
      exact ⟨hnext.store_eq, hcont.fields⟩
    · rw [heq, asked?_of_waits ht]
      exact ⟨rfl, rfl⟩
    · obtain ⟨hhalts, hfields, -⟩ := turn_ends ht
      rw [heq]
      exact ⟨hhalts.store_eq, hfields⟩
  · rw [step_of_not_running _ _ _ hrun, asked?_of_not_running hrun]
    exact ⟨rfl, rfl⟩

end Link

end PrefixCache

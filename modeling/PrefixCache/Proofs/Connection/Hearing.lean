import PrefixCache.Proofs.Connection.Turning
/-!
# Hearing from a client

A connection notes the time when it has read bytes of its client, and when
all of a reply has left; a client that was not heard from for too long is idle.
A step of a link tells by the wire and the reply before it whether it notes
the time (`Link.Hears`), and it changes the table of clients in no other way
(`Link.heard_step`).
-/

namespace PrefixCache

/-- A reply is being sent. -/
def Phase.isSending : Phase → Bool
  | .sending _ => true
  | _ => false

namespace Link

/-- A turn has heard from the client: it has read bytes off the wire, or
all of a reply has left. -/
def Hears (c : Connection) (w w' : Wire) : Prop :=
  w'.arrived.size < w.arrived.size ∨ c.phase.isSending ∧ c.reply = []

instance (c : Connection) (w w' : Wire) : Decidable (Hears c w w') :=
  inferInstanceAs (Decidable (_ ∨ _))

/-- The table after a turn: the client was heard from, or nothing has
changed. -/
structure Heard (c : Connection) (w w' : Wire) (tick : Nat) (t t' : Clients) : Prop where
  hears : Hears c w w' → t' = t.touch c.client tick
  silent : ¬ Hears c w w' → t' = t

variable {c : Connection} {w w' : Wire} {h h' : Hub} {notice : Notice} {m : Moment}

theorem heard_of_silent {tick : Nat} {t : Clients} (hphase : ¬ (c.phase.isSending ∧ c.reply = []))
    (harrived : w'.arrived = w.arrived) : Heard c w w' tick t t where
  hears hh := by
    rcases hh with hless | hsent
    · rw [harrived] at hless
      exact absurd hless (Nat.lt_irrefl _)
    · exact absurd hsent hphase
  silent _ := rfl

theorem heard_of_hears {tick : Nat} {t : Clients} (hh : Hears c w w') :
    Heard c w w' tick t (t.touch c.client tick) :=
  ⟨fun _ => rfl, fun hsilent => absurd hh hsilent⟩

theorem not_sending {phase : Phase} (hp : c.phase = phase) (h : phase.isSending = false) :
    ¬ (c.phase.isSending ∧ c.reply = []) := by
  rw [hp, h]
  rintro ⟨hs, -⟩
  cases hs

/-- The connection alone hears from its client when a reply has left. -/
theorem heard_connection (ht : (∃ c', c.turn h m = .goesOn c' h') ∨ ∃ e, c.turn h m = .ends e h')
    (w : Wire) : Heard c w w m.tick h.clients h'.clients := by
  unfold Connection.turn at ht
  split at ht
  · next hp =>
    have hsilent := not_sending hp rfl
    split at ht
    · rcases ht with ⟨_, ht⟩ | ⟨_, ht⟩ <;> cases ht
    · unfold Connection.takeLength at ht
      split at ht <;> rcases ht with ⟨_, ht⟩ | ⟨_, ht⟩ <;> cases ht <;>
        exact heard_of_silent hsilent rfl
  · next length hp =>
    have hsilent := not_sending hp rfl
    split at ht
    · rcases ht with ⟨_, ht⟩ | ⟨_, ht⟩ <;> cases ht
    · unfold Connection.takeBody at ht
      split at ht
      · rcases ht with ⟨_, ht⟩ | ⟨_, ht⟩ <;> cases ht
        exact heard_of_silent hsilent rfl
      · simp only at ht
        split at ht <;> rcases ht with ⟨_, ht⟩ | ⟨_, ht⟩ <;> cases ht <;>
          exact heard_of_silent hsilent rfl
  · next closing hp =>
    split at ht
    · next hreply =>
      have hsent : Hears c w w := .inr ⟨by rw [hp]; rfl, hreply⟩
      unfold Connection.afterReply at ht
      simp only at ht
      split at ht <;> rcases ht with ⟨_, ht⟩ | ⟨_, ht⟩ <;> cases ht <;> exact heard_of_hears hsent
    · rcases ht with ⟨_, ht⟩ | ⟨_, ht⟩ <;> cases ht

/-- A turn of a link hears from its client besides when bytes come off the
wire. -/
theorem heard_turn
    (ht : (∃ c', turn c w h notice m = .goesOn c' w' h') ∨
      ∃ e, turn c w h notice m = .ends e w' h') :
    Heard c w w' m.tick h.clients h'.clients := by
  unfold turn at ht
  split at ht
  · next hc =>
    rcases ht with ⟨_, ht⟩ | ⟨_, ht⟩ <;> cases ht
    exact heard_connection (.inl ⟨_, hc⟩) w
  · next hc =>
    rcases ht with ⟨_, ht⟩ | ⟨_, ht⟩ <;> cases ht
    exact heard_connection (.inr ⟨_, hc⟩) w
  · next hc =>
    have hsilent : ¬ (c.phase.isSending ∧ c.reply = []) := by
      rcases Connection.short_of_needsInput hc with ⟨hp, -⟩ | ⟨length, hp, -⟩ <;>
        exact not_sending hp rfl
    unfold input at ht
    split at ht
    · rcases ht with ⟨_, ht⟩ | ⟨_, ht⟩ <;> cases ht
      exact heard_of_silent hsilent rfl
    · split at ht
      · rcases ht with ⟨_, ht⟩ | ⟨_, ht⟩ <;> cases ht
        exact heard_of_silent hsilent rfl
      · next hroom =>
        split at ht
        · next harrived =>
          simp only [Connection.receive] at ht
          rcases ht with ⟨_, ht⟩ | ⟨_, ht⟩ <;> cases ht
          refine heard_of_hears (.inl ?_)
          simp only [ByteQueue.size_cut]
          omega
        · split at ht <;> rcases ht with ⟨_, ht⟩ | ⟨_, ht⟩ <;> cases ht <;>
          exact heard_of_silent hsilent rfl
  · next hc =>
    have hsilent : ¬ (c.phase.isSending ∧ c.reply = []) := fun hs =>
      Connection.reply_ne_nil_of_needsOutput hc hs.2
    unfold output at ht
    split at ht <;> rcases ht with ⟨_, ht⟩ | ⟨_, ht⟩ <;> cases ht <;>
      exact heard_of_silent hsilent rfl

/-- A link that waits has no reply that has left. -/
theorem silent_of_waits (ht : turn c w h notice m = .waits) :
    ¬ (c.phase.isSending ∧ c.reply = []) := by
  rintro ⟨hsending, hreply⟩
  cases hp : c.phase with
  | sending closing =>
    simp only [turn, Connection.turn, hp, if_pos hreply, Connection.afterReply] at ht
    cases closing <;> simp at ht
  | _ =>
    rw [hp] at hsending
    cases hsending

/-- A step serves the same client. -/
theorem client_step (l : Link) (h : Hub) (notice : Notice) (m : Moment) :
    (l.step h notice m).1.connection.client = l.connection.client := by
  by_cases hrun : l.state = .running
  · rcases step_cases h notice m hrun with ⟨c, w, h', ht, heq⟩ | ⟨-, heq⟩ | ⟨e, w, h', -, heq⟩
    · rw [heq]
      exact (turn_goesOn ht).2.client
    · rw [heq]
    · rw [heq]
  · rw [step_of_not_running _ _ _ hrun]

/-- **A step of a link changes the table by hearing from its client**, and in
no other way. -/
theorem heard_step {l : Link} (hrun : l.state = .running) (h : Hub) (notice : Notice) (m : Moment) :
    Heard l.connection l.wire (l.step h notice m).1.wire m.tick h.clients
      (l.step h notice m).2.clients := by
  rcases step_cases h notice m hrun with
    ⟨c, w, h', ht, heq⟩ | ⟨ht, heq⟩ | ⟨e, w, h', ht, heq⟩
  · rw [heq]
    exact heard_turn (.inl ⟨_, ht⟩)
  · rw [heq]
    exact heard_of_silent (silent_of_waits ht) rfl
  · rw [heq]
    exact heard_turn (.inr ⟨_, ht⟩)

end Link

end PrefixCache

import PrefixCache.Proofs.Server.History
import PrefixCache.Server.Run
/-!
# A server is a crowd

A running server lets each link go on until it waits, runs several chores
and aborts many links at once. All of that can be taken apart into
occurrences of a crowd, one step of one link at a time. So whatever is
true of every crowd is true of every server, whichever way its clients and
timers come in each other's way (`Server.crowd_of_deeds`).
-/

namespace PrefixCache

namespace Link

/-- A link serves the same client for all its life. -/
theorem client_runFor (notice : Notice) (m : Moment) (steps : Nat) (c : Connection) (w : Wire)
    (hub : Hub) : (runFor notice m steps c w hub).1.connection.client = c.client := by
  induction steps generalizing c w hub with
  | zero => rfl
  | succ steps ih =>
    cases ht : turn c w hub notice m with
    | goesOn c' w' hub' =>
      rw [runFor, ht]
      exact (ih c' w' hub').trans (turn_goesOn ht).2.client
    | waits => rw [runFor, ht]
    | ends e w' hub' => rw [runFor, ht]

theorem client_run (l : Link) (hub : Hub) (notice : Notice) (m : Moment) :
    (l.run hub notice m).1.connection.client = l.connection.client := by
  unfold run
  split
  · exact client_runFor notice m _ _ _ hub
  · rfl

end Link

namespace Crowd

/-- Some occurrences lead from one crowd to another. -/
def Reaches (crowd crowd' : Crowd) : Prop := ∃ occurrences, crowd.follow occurrences = crowd'

variable {crowd crowd' crowd'' : Crowd}

theorem Reaches.refl (crowd : Crowd) : crowd.Reaches crowd := ⟨[], rfl⟩

theorem Reaches.trans (h : crowd.Reaches crowd') (h' : crowd'.Reaches crowd'') :
    crowd.Reaches crowd'' := by
  obtain ⟨first, rfl⟩ := h
  obtain ⟨second, rfl⟩ := h'
  exact ⟨first ++ second, List.foldl_append⟩

theorem Reaches.of_happen (o : Occurrence) (h : crowd.happen o = crowd') :
    crowd.Reaches crowd' := ⟨[o], h⟩

/-! ## One link among others -/

section Among

variable (before after : List Link) (l : Link) (hub : Hub)

@[simp] theorem getElem?_among : (before ++ l :: after)[before.length]? = some l := by simp

@[simp] theorem modify_among (change : Link → Link) :
    (before ++ l :: after).modify before.length change = before ++ change l :: after := by
  induction before with
  | nil => rfl
  | cons first before ih => exact congrArg (first :: ·) ih

@[simp] theorem set_among (l' : Link) :
    (before ++ l :: after).set before.length l' = before ++ l' :: after := by
  induction before with
  | nil => rfl
  | cons first before ih => exact congrArg (first :: ·) ih

theorem happen_steps (notice : Notice) (m : Moment) :
    happen { hub, links := before ++ l :: after } (.steps before.length notice m) =
      { hub := (l.step hub notice m).2
        links := before ++ (l.step hub notice m).1 :: after } := by
  simp only [happen, getElem?_among, set_among]

theorem happen_leaves (h : l.isRunning = false) :
    happen { hub, links := before ++ l :: after } (.leaves before.length) =
      { hub := hub.unregister l.connection.client, links := before ++ l :: after } := by
  simp only [happen, getElem?_among, h, Bool.false_eq_true, if_false]

end Among

/-- What is done with a link and the hub can be done with it among others. -/
def Local (deal : Link → Hub → Link × Hub) : Prop :=
  ∀ before after l hub, Reaches { hub, links := before ++ l :: after }
    { hub := (deal l hub).2, links := before ++ (deal l hub).1 :: after }

/-- **A run of a link is a number of steps.** -/
theorem reaches_runFor (notice : Notice) (m : Moment) (steps : Nat) (before after : List Link)
    (c : Connection) (w : Wire) (hub : Hub) :
    Reaches { hub, links := before ++ { connection := c, wire := w } :: after }
      { hub := (Link.runFor notice m steps c w hub).2
        links := before ++ (Link.runFor notice m steps c w hub).1 :: after } := by
  induction steps generalizing c w hub with
  | zero => exact .refl _
  | succ steps ih =>
    let l : Link := { connection := c, wire := w }
    have hrun : l.state = .running := rfl
    have hstep := happen_steps before after l hub notice m
    rcases Link.step_cases hub notice m hrun with
      ⟨c', w', hub', ht, heq⟩ | ⟨ht, -⟩ | ⟨e, w', hub', ht, heq⟩
    · rw [heq] at hstep
      rw [Link.runFor, ht]
      exact (Reaches.of_happen _ hstep).trans (ih c' w' hub')
    · rw [Link.runFor, ht]
      exact .refl _
    · rw [heq] at hstep
      rw [Link.runFor, ht]
      exact .of_happen _ hstep

theorem local_run (notice : Notice) (m : Moment) : Local fun l hub => l.run hub notice m := by
  intro before after l hub
  obtain ⟨c, w, state⟩ := l
  cases state with
  | running => exact reaches_runFor notice m _ before after c w hub
  | _ => exact .refl _

theorem local_serve (notice : Notice) (m : Moment) : Local fun l hub => l.serve hub notice m := by
  intro before after l hub
  refine (local_run notice m before after l hub).trans ?_
  simp only [Link.serve]
  split
  · next hends =>
    rw [Bool.and_eq_true, Bool.not_eq_true'] at hends
    refine .of_happen _ ((happen_leaves before after _ _ hends.2).trans ?_)
    rw [l.client_run]
  · exact .refl _

theorem local_abortServed (begun : Bool) : Local (Link.abortServed begun) := by
  intro before after l hub
  unfold Link.abortServed
  split
  · next hrun =>
    have habort : happen { hub, links := before ++ l :: after } (.aborts before.length) =
        { hub, links := before ++ { l with state := .aborted } :: after } := by
      simp only [happen, modify_among, Link.abort, if_pos hrun]
    refine (Reaches.of_happen _ habort).trans ?_
    cases begun with
    | true => exact .of_happen _ (happen_leaves before after { l with state := .aborted } hub rfl)
    | false => exact .refl _
  · exact .refl _

/-- An occurrence that changes one link by itself. -/
theorem local_of_modify {change : Link → Link} (o : Nat → Occurrence)
    (h : ∀ crowd i, happen crowd (o i) = { crowd with links := crowd.links.modify i change }) :
    Local fun l hub => (change l, hub) := by
  intro before after l hub
  refine .of_happen (o before.length) ?_
  rw [h]
  simp only [modify_among]

theorem local_deliver (piece : Bytes) : Local fun l hub => (l.deliver piece, hub) :=
  local_of_modify (.arrives · piece) fun _ _ => rfl

theorem local_setInput (input : Input) : Local fun l hub => (l.setInput input, hub) :=
  local_of_modify (.hears · input) fun _ _ => rfl

theorem local_setRoom (room : Room) : Local fun l hub => (l.setRoom room, hub) :=
  local_of_modify (.takes · room) fun _ _ => rfl

/-- What is done with some links only. -/
theorem Local.ite {deal : Link → Hub → Link × Hub} (h : Local deal) (chosen : Link → Prop)
    [DecidablePred chosen] : Local fun l hub => if chosen l then deal l hub else (l, hub) := by
  intro before after l hub
  simp only
  split
  · exact h before after l hub
  · exact .refl _

/-- Does something with all links, one after the other. -/
def forEach (deal : Link → Hub → Link × Hub) : List Link → Hub → List Link × Hub
  | [], hub => ([], hub)
  | l :: links, hub =>
    let (l, hub) := deal l hub
    let (links, hub) := forEach deal links hub
    (l :: links, hub)

/-- **What can be done with one link can be done with all of them.** -/
theorem Local.reaches_forEach {deal : Link → Hub → Link × Hub} (h : Local deal)
    (before links : List Link) (hub : Hub) :
    Reaches { hub, links := before ++ links }
      { hub := (forEach deal links hub).2, links := before ++ (forEach deal links hub).1 } := by
  induction links generalizing before hub with
  | nil => exact .refl _
  | cons l links ih =>
    have hrest := ih (before ++ [(deal l hub).1]) (deal l hub).2
    simp only [List.append_assoc, List.singleton_append] at hrest
    exact (h before links l hub).trans hrest

end Crowd

/-! ## What a server does -/

namespace Server

/-- The crowd of a server. -/
def crowd (s : Server) : Crowd := { hub := s.hub, links := s.links }

theorem serveAll_eq (notice : Notice) (m : Moment) (links : List Link) (hub : Hub) :
    serveAll notice m links hub = Crowd.forEach (fun l hub => l.serve hub notice m) links hub := by
  induction links generalizing hub with
  | nil => rfl
  | cons l links ih => simp only [serveAll, Crowd.forEach, ih]

theorem abortAll_eq (doomed : ClientId → Bool) (links : List Link) (hub : Hub) :
    abortAll doomed links hub =
      Crowd.forEach
        (fun l hub => if doomed l.connection.client then l.abortServed true hub else (l, hub))
        links hub := by
  induction links generalizing hub with
  | nil => rfl
  | cons l links ih => simp only [abortAll, Crowd.forEach, ih]

theorem map_eq (change : Link → Link) (links : List Link) (hub : Hub) :
    (links.map change, hub) = Crowd.forEach (fun l hub => (change l, hub)) links hub := by
  induction links with
  | nil => rfl
  | cons l links ih => simp only [Crowd.forEach, ← ih, List.map_cons]

theorem map_ite_eq (change : Link → Link) (chosen : Link → Prop) [DecidablePred chosen]
    (links : List Link) (hub : Hub) :
    (links.map fun l => if chosen l then change l else l, hub) =
      Crowd.forEach (fun l hub => if chosen l then (change l, hub) else (l, hub)) links hub := by
  rw [map_eq]
  congr 1
  funext l hub
  split <;> rfl

theorem reaches_settle (s : Server) : s.crowd.Reaches s.settle.crowd := by
  have hall := (Crowd.local_serve s.notice s.moment).reaches_forEach [] s.links s.hub
  rw [← serveAll_eq] at hall
  exact hall

theorem reaches_abortClients (s : Server) (clients : List Client) :
    s.crowd.Reaches (s.abortClients clients).crowd := by
  have hall := ((Crowd.local_abortServed true).ite fun l =>
    (clients.any fun c => c.id == l.connection.client) = true).reaches_forEach [] s.links s.hub
  rw [← abortAll_eq fun id => clients.any fun c => c.id == id] at hall
  exact hall

/-- **A chore is some occurrences.** -/
theorem reaches_runChore (chore : Chore) (s : Server) :
    s.crowd.Reaches (runChore chore s).2.crowd := by
  cases chore with
  | cron =>
    refine .of_happen (.keeps (.cron s.wall)) ?_
    simp only [runChore, runCron]
    split <;> rfl
  | expire => exact .of_happen (.keeps .expire) rfl
  | evict => exact .of_happen (.keeps (.evict s.measured.1 s.measured.2)) rfl
  | reap => exact reaches_abortClients s _
  | report => exact .refl _

theorem reaches_look (s : Server) (deadline : Nat) : s.crowd.Reaches (s.look deadline).crowd := by
  unfold look
  split
  · exact (reaches_abortClients s _).trans (.of_happen (.keeps .clear) rfl)
  · exact .refl _

theorem reaches_nextEvent {s : Server} {limit time : Nat} {change : Server → Server}
    (h : s.nextEvent? limit = some (time, change)) (s' : Server) :
    s'.crowd.Reaches (change s').crowd := by
  unfold nextEvent? at h
  split at h
  · obtain ⟨⟨t, rest⟩, -, heq⟩ := Option.map_eq_some_iff.1 h
    cases heq
    have hchore := reaches_runChore t.label s'
    simp only
    split
    · next delay after hrun =>
      rw [hrun] at hchore
      exact hchore
    · next after hrun =>
      rw [hrun] at hchore
      exact hchore
  · split at h
    · cases h
      exact reaches_look s' _
    · cases h
  · cases h

/-- **While time passes, a server does what a crowd can do.** -/
theorem reaches_elapse (s : Server) (millis : Nat) : s.crowd.Reaches (s.elapse millis).crowd := by
  unfold elapse
  generalize 6 * (millis + 2) = events
  generalize s.tick + millis = limit
  induction events generalizing s with
  | zero => exact .refl _
  | succ events ih =>
    unfold elapseFor
    split
    · exact .refl _
    · next time change h =>
      have hchange := reaches_nextEvent h { s with tick := max s.tick time }
      exact (hchange.trans (reaches_settle _)).trans (ih _)

theorem reaches_accept (s : Server) (peer : String) : s.crowd.Reaches (s.accept peer).2.crowd := by
  have hjoins : s.crowd.Reaches (s.crowd.happen (.joins peer s.tick s.settings.connectionLimits)) :=
    .of_happen _ rfl
  unfold accept
  split
  · exact .refl _
  · next id hub hregister =>
    simp only [Crowd.happen, crowd, hregister] at hjoins
    let link : Link := { connection := { client := id, limits := s.settings.connectionLimits } }
    exact hjoins.trans (reaches_settle { s with hub := hub.attach id, links := s.links ++ [link] })

theorem reaches_onLink (s : Server) (client : ClientId) {change : Link → Link}
    (h : Crowd.Local fun l hub => (change l, hub)) :
    s.crowd.Reaches (s.onLink client change).crowd := by
  have hall := (h.ite fun l => l.connection.client = client).reaches_forEach [] s.links s.hub
  rw [← map_ite_eq change fun l => l.connection.client = client] at hall
  let links := s.links.map fun l => if l.connection.client = client then change l else l
  exact hall.trans (reaches_settle { s with links })

/-- What can be done with a server from outside. -/
inductive Deed where
  /-- Accepts a client. -/
  | accept (peer : String)
  /-- Lets bytes of a client arrive. -/
  | deliver (client : ClientId) (piece : Bytes)
  /-- Says how the input of a client goes on. -/
  | setInput (client : ClientId) (input : Input)
  /-- Says how many bytes may leave for a client. -/
  | setRoom (client : ClientId) (room : Room)
  /-- Lets time pass, by the calendar and by the memory that is measured. -/
  | elapse (wall : Int) (measured : Nat × Nat) (millis : Nat)
  | raiseStop
  deriving Repr, DecidableEq

/-- Does a deed. -/
def perform (s : Server) : Deed → Server
  | .accept peer => (s.accept peer).2
  | .deliver client piece => s.onLink client (Link.deliver · piece)
  | .setInput client input => s.onLink client (Link.setInput · input)
  | .setRoom client room => s.onLink client (Link.setRoom · room)
  | .elapse wall measured millis => Server.elapse { s with wall, measured } millis
  | .raiseStop => s.raiseStop

theorem reaches_perform (s : Server) (d : Deed) : s.crowd.Reaches (s.perform d).crowd := by
  cases d with
  | accept peer => exact reaches_accept s peer
  | deliver client piece => exact reaches_onLink s client (Crowd.local_deliver piece)
  | setInput client input => exact reaches_onLink s client (Crowd.local_setInput input)
  | setRoom client room => exact reaches_onLink s client (Crowd.local_setRoom room)
  | elapse wall measured millis => exact reaches_elapse { s with wall, measured } millis
  | raiseStop => exact .refl _

/-- **A server that begins and runs is a crowd** that begins without links,
in which some occurrences come one after the other. -/
theorem crowd_of_deeds (settings : Settings) (wall : Int) (measured : Nat × Nat)
    (deeds : List Deed) :
    ∃ occurrences, (deeds.foldl perform (start settings wall measured)).crowd =
      ({ hub := Hub.ofSettings settings wall } : Crowd).follow occurrences := by
  have hrun (s : Server) : s.crowd.Reaches (deeds.foldl perform s).crowd := by
    induction deeds generalizing s with
    | nil => exact .refl _
    | cons d deeds ih => exact (reaches_perform s d).trans (ih (s.perform d))
  obtain ⟨occurrences, hoccurrences⟩ := hrun (start settings wall measured)
  exact ⟨occurrences, hoccurrences.symm⟩

end Server

end PrefixCache

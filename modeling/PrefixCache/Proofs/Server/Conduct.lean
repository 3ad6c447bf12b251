import PrefixCache.Proofs.Server.Teardown
/-!
# A server is a site

A running server lets each link go on until it waits, aborts many links at
once, and destroys every item in the same breath. A site does all of that
one move after the other, and anything else may happen between two moves.
So a server does what a site can do (`Server.site_of_deeds`), and what holds
of every site holds of every server that accepts clients only while it
serves: its table tells who is still served, and nothing is left in the
store when it is over.
-/

namespace PrefixCache

namespace Link

variable {l : Link} {hub : Hub} {notice : Notice} {m : Moment}

/-- What a run of a link leaves of the hub: if it has ended the link, the
client leaves the table. -/
def leftBy (out : Link × Hub) (client : ClientId) : Hub :=
  if out.1.isRunning then out.2 else out.2.unregister client

theorem serve_of_running (h : l.state = .running) :
    let out := runFor notice m (effort l.connection l.wire + 1) l.connection l.wire hub
    l.serve hub notice m = (out.1, leftBy out l.connection.client) := by
  have hrun : l.run hub notice m =
      runFor notice m (effort l.connection l.wire + 1) l.connection l.wire hub := by
    simp only [run, h]
  simp only [serve, hrun, isRunning_iff.2 h, Bool.true_and, leftBy]
  split <;> simp_all

theorem serve_of_not_running (h : l.isRunning = false) : l.serve hub notice m = (l, hub) := by
  have hrun : l.run hub notice m = (l, hub) := by
    unfold run
    split
    · next hstate =>
      rw [isRunning_iff.2 hstate] at h
      cases h
    · rfl
  simp only [serve, hrun, h, Bool.false_and, Bool.false_eq_true, if_false]

end Link

/-! ## Dealing with seats -/

namespace Seat

/-- Some dealings lead from one seat and hub to others. -/
def Leads (seat : Seat) (hub : Hub) (seat' : Seat) (hub' : Hub) : Prop :=
  ∃ dealings : List Dealing,
    dealings.foldl (fun (p : Seat × Hub) d => p.1.deal d p.2) (seat, hub) = (seat', hub')

/-- A task that was aborted has been dropped, and no connection has ended
without having been served. -/
structure Orderly (seat : Seat) : Prop where
  dropped : seat.doomed = true → seat.link.isRunning = false
  served : seat.link.isRunning = false → seat.begun = true

/-- Besides, the task has had its first turn. -/
structure Settled (seat : Seat) : Prop where
  dropped : seat.doomed = true → seat.link.isRunning = false
  begun : seat.begun = true

variable {seat seat' seat'' : Seat} {hub hub' hub'' : Hub}

theorem Leads.refl (seat : Seat) (hub : Hub) : seat.Leads hub seat hub := ⟨[], rfl⟩

theorem Leads.head (d : Dealing) (hd : seat.deal d hub = (seat', hub'))
    (h : seat'.Leads hub' seat'' hub'') : seat.Leads hub seat'' hub'' := by
  obtain ⟨dealings, hdealings⟩ := h
  exact ⟨d :: dealings, by rw [List.foldl_cons, hd, hdealings]⟩

theorem Settled.orderly (h : seat.Settled) : seat.Orderly := ⟨h.dropped, fun _ => h.begun⟩

theorem Settled.not_unserved (h : seat.Settled) : ¬ seat.IsUnserved := by
  rintro ⟨-, hbegun⟩
  rw [h.begun] at hbegun
  cases hbegun

theorem dropped_of_free (h : seat.doomed = false) :
    seat.doomed = true → seat.link.isRunning = false := by
  rw [h]
  exact nofun

theorem Orderly.free (h : seat.Orderly) (hrun : seat.link.isRunning = true) :
    seat.doomed = false := by
  refine Bool.eq_false_iff.2 fun hdoomed => ?_
  rw [h.dropped hdoomed] at hrun
  cases hrun

/-- What is done with a link and the hub can be done with every such seat,
and settles it. -/
def Can (P : Seat → Prop) (deal : Link → Hub → Link × Hub) : Prop :=
  ∀ seat hub, P seat → ∃ seat', seat.Leads hub seat' (deal seat.link hub).2 ∧
    seat'.link = (deal seat.link hub).1 ∧ seat'.Settled

theorem step_eq (h : seat.link.isRunning = true) (hfree : seat.doomed = false) (hub : Hub)
    (notice : Notice) (m : Moment) : ∃ heard, seat.deal (.steps notice m) hub =
      ({ seat with link := (seat.link.step hub notice m).1, begun := true, heard },
        Link.leftBy (seat.link.step hub notice m) seat.client) := by
  simp only [deal, step, if_pos (And.intro h hfree)]
  exact ⟨_, rfl⟩

/-- **A run of a link is a number of steps**, the last of which may end it. A
link that waits has had a turn, too. -/
theorem leads_runFor (notice : Notice) (m : Moment) (steps : Nat) (seat : Seat) (hub : Hub)
    (hrun : seat.link.state = .running) (hfree : seat.doomed = false) :
    let out := Link.runFor notice m steps seat.link.connection seat.link.wire hub
    ∃ seat', seat.Leads hub seat' (Link.leftBy out seat.client) ∧ seat'.link = out.1 ∧
      seat'.doomed = false ∧ (0 < steps ∨ seat.begun = true → seat'.begun = true) := by
  have hlink : ({ connection := seat.link.connection, wire := seat.link.wire } : Link) =
      seat.link := by
    rw [← hrun]
  have hstays : Link.leftBy (seat.link, hub) seat.client = hub :=
    if_pos (Link.isRunning_iff.2 hrun)
  induction steps generalizing seat hub with
  | zero =>
    refine ⟨seat, ?_, hlink.symm, hfree, fun hbegun => hbegun.resolve_left (Nat.lt_irrefl 0)⟩
    rw [Link.runFor, hlink, hstays]
    exact .refl _ _
  | succ steps ih =>
    obtain ⟨heard, hdeal⟩ := step_eq (Link.isRunning_iff.2 hrun) hfree hub notice m
    rcases Link.step_cases hub notice m hrun with
      ⟨c, w, hub', ht, heq⟩ | ⟨ht, heq⟩ | ⟨e, w, hub', ht, heq⟩
    · let next : Seat :=
        { seat with link := { connection := c, wire := w }, begun := true, heard }
      have hclient : next.client = seat.client := (Link.turn_goesOn ht).2.client
      obtain ⟨seat', hleads, hlink', hfree', hbegun⟩ := ih next hub' rfl hfree rfl rfl
      rw [heq] at hdeal
      rw [hclient] at hleads
      rw [Link.runFor, ht]
      exact ⟨seat', .head _ hdeal hleads, hlink', hfree', fun _ => hbegun (.inr rfl)⟩
    · rw [heq, hstays] at hdeal
      rw [Link.runFor, ht]
      simp only [hlink, hstays]
      exact ⟨_, .head _ hdeal (.refl _ _), rfl, hfree, fun _ => rfl⟩
    · rw [heq] at hdeal
      rw [Link.runFor, ht]
      exact ⟨_, .head _ hdeal (.refl _ _), rfl, hfree, fun _ => rfl⟩

theorem can_serve (notice : Notice) (m : Moment) :
    Can Orderly fun l hub => l.serve hub notice m := by
  intro seat hub horderly
  cases hrun : seat.link.isRunning with
  | true =>
    have hstate := Link.isRunning_iff.1 hrun
    obtain ⟨seat', hleads, hlink, hfree, hbegun⟩ :=
      leads_runFor notice m (Link.effort seat.link.connection seat.link.wire + 1) seat hub hstate
        (horderly.free hrun)
    simp only [Link.serve_of_running hstate]
    exact ⟨seat', hleads, hlink, dropped_of_free hfree, hbegun (.inl (Nat.succ_pos _))⟩
  | false =>
    simp only [Link.serve_of_not_running hrun]
    exact ⟨seat, .refl _ _, rfl, horderly.dropped, horderly.served hrun⟩

/-- What changes a link by itself. -/
theorem can_relink {change : Link → Link} (d : Dealing)
    (hd : ∀ seat hub, deal d seat hub = relink change seat hub)
    (hsame : ∀ l : Link, (change l).state = l.state) :
    Can Settled fun l hub => (change l, hub) := by
  intro seat hub hsettled
  refine ⟨(relink change seat hub).1, .head d (hd seat hub) (.refl _ _), rfl, fun hdoomed => ?_,
    hsettled.begun⟩
  rw [← hsettled.dropped hdoomed]
  simp only [relink, Link.isRunning, hsame]

theorem Can.ite {deal : Link → Hub → Link × Hub} (h : Can Settled deal) (chosen : Link → Prop)
    [DecidablePred chosen] :
    Can Settled fun l hub => if chosen l then deal l hub else (l, hub) := by
  intro seat hub hsettled
  simp only
  split
  · exact h seat hub hsettled
  · exact ⟨seat, .refl _ _, rfl, hsettled⟩

/-- Tasks that are aborted get dropped, which is of no account when they
have ended. They have begun, so their clients leave. -/
theorem can_drop (chosen : ClientId → Bool) :
    Can (fun seat => (seat.link.isRunning = true → seat.doomed = chosen seat.client) ∧
        seat.begun = true)
      fun l hub => if chosen l.connection.client then l.abortServed true hub else (l, hub) := by
  rintro seat hub ⟨hdoomed, hbegun⟩
  cases hrun : seat.link.isRunning with
  | true =>
    have hsame : seat.doomed = chosen seat.link.connection.client := hdoomed hrun
    simp only
    cases hchosen : chosen seat.link.connection.client with
    | true =>
      have hdrop : seat.drop hub = ({ seat with link := (seat.link.abortServed true hub).1 },
          (seat.link.abortServed true hub).2) := by
        simp only [drop, hsame, hchosen, hbegun, if_true]
      refine ⟨_, .head .drops hdrop (.refl _ _), rfl, fun _ => ?_, hbegun⟩
      simp only [Link.abortServed, hrun, if_true]
      rfl
    | false =>
      exact ⟨seat, .refl _ _, rfl, dropped_of_free (hsame.trans hchosen), hbegun⟩
  | false =>
    simp only [Link.abortServed, hrun, Bool.false_eq_true, if_false, ite_self]
    exact ⟨seat, .refl _ _, rfl, fun _ => hrun, hbegun⟩

end Seat

namespace House

/-- Some dealings with connections lead from one house to another. -/
def Deals (house house' : House) : Prop :=
  ∃ dealings : List (Nat × Dealing),
    dealings.foldl (fun house d => house.deal d.1 d.2) house = house'

variable {house house' house'' : House}

theorem Deals.refl (house : House) : house.Deals house := ⟨[], rfl⟩

theorem Deals.trans (h : house.Deals house') (h' : house'.Deals house'') :
    house.Deals house'' := by
  obtain ⟨first, rfl⟩ := h
  obtain ⟨second, rfl⟩ := h'
  exact ⟨first ++ second, List.foldl_append⟩

theorem deal_among (before after : List Seat) (seat : Seat) (hub : Hub) (d : Dealing) :
    House.deal { hub, seats := before ++ seat :: after } before.length d =
      { hub := (seat.deal d hub).2, seats := before ++ (seat.deal d hub).1 :: after } := by
  have hseat : (before ++ seat :: after)[before.length]? = some seat := by simp
  simp only [House.deal, hseat, List.set_append_right _ _ (Nat.le_refl _), Nat.sub_self,
    List.set_cons_zero]

/-- What leads from a seat to another can be dealt with it among others. -/
theorem deals_among {seat seat' : Seat} {hub hub' : Hub} (h : seat.Leads hub seat' hub')
    (before after : List Seat) :
    Deals { hub, seats := before ++ seat :: after }
      { hub := hub', seats := before ++ seat' :: after } := by
  obtain ⟨dealings, hdealings⟩ := h
  refine ⟨dealings.map fun d => (before.length, d), ?_⟩
  induction dealings generalizing seat hub with
  | nil =>
    cases hdealings
    rfl
  | cons d dealings ih =>
    rw [List.map_cons, List.foldl_cons, deal_among]
    exact ih hdealings

/-- **What can be done with one seat can be done with all of them.** -/
theorem deals_forEach {P : Seat → Prop} {deal : Link → Hub → Link × Hub} (h : Seat.Can P deal)
    (before seats : List Seat) (hub : Hub) (hP : ∀ seat ∈ seats, P seat) :
    ∃ seats', Deals { hub, seats := before ++ seats }
        { hub := (Crowd.forEach deal (seats.map Seat.link) hub).2, seats := before ++ seats' } ∧
      seats'.map Seat.link = (Crowd.forEach deal (seats.map Seat.link) hub).1 ∧
      ∀ seat ∈ seats', seat.Settled := by
  induction seats generalizing before hub with
  | nil => exact ⟨[], .refl _, rfl, fun _ hseat => absurd hseat List.not_mem_nil⟩
  | cons seat seats ih =>
    rw [List.forall_mem_cons] at hP
    obtain ⟨seat', hleads, hlink, hsettled⟩ := h seat hub hP.1
    obtain ⟨seats', hdeals, hlinks, hrest⟩ :=
      ih (before ++ [seat']) (deal seat.link hub).2 hP.2
    rw [List.append_assoc, List.append_assoc] at hdeals
    refine ⟨seat' :: seats', (deals_among hleads before seats).trans hdeals, ?_,
      List.forall_mem_cons.2 ⟨hsettled, hrest⟩⟩
    rw [List.map_cons, hlink, hlinks]
    rfl

/-- A house with such seats has come to a hub and some links. -/
structure Shows (house : House) (P : Seat → Prop) (hub : Hub) (links : List Link) : Prop where
  hub_eq : house.hub = hub
  links_eq : house.seats.map Seat.link = links
  seats : ∀ seat ∈ house.seats, P seat

variable {P : Seat → Prop} {hub : Hub} {links : List Link}

/-- What is done with all links. -/
theorem Shows.forEach (h : house.Shows P hub links) {deal : Link → Hub → Link × Hub}
    (hcan : Seat.Can P deal) : ∃ house', house.Deals house' ∧
      house'.Shows Seat.Settled (Crowd.forEach deal links hub).2
        (Crowd.forEach deal links hub).1 := by
  obtain ⟨hub, seats⟩ := house
  obtain ⟨rfl, rfl, hseats⟩ := h
  obtain ⟨seats', hdeals, hlinks, hsettled⟩ := deals_forEach hcan [] seats hub hseats
  exact ⟨_, hdeals, rfl, hlinks, hsettled⟩

theorem Shows.keeps (h : house.Shows P hub links) (u : Upkeep) :
    (house.happen (.keeps u)).Shows P { hub with store := hub.store.keep u } links := by
  obtain ⟨rfl, hlinks, hseats⟩ := h
  exact ⟨rfl, hlinks, hseats⟩

theorem Shows.orderly (h : house.Shows Seat.Settled hub links) :
    house.Shows Seat.Orderly hub links :=
  ⟨h.hub_eq, h.links_eq, fun seat hseat => (h.seats seat hseat).orderly⟩

/-- **Letting a client in**, if there is a seat. Its task has not begun. -/
theorem Shows.letIn (h : house.Shows Seat.Settled hub links) (peer : String) (tick : Nat)
    (limits : ConnectionLimits) :
    match hub.register peer tick with
    | (none, _) => (house.letIn peer tick limits).Shows Seat.Settled hub links
    | (some client, hub) => (house.letIn peer tick limits).Shows Seat.Orderly (hub.attach client)
        (links ++ [{ connection := { client, limits } }]) := by
  obtain ⟨hub, seats⟩ := house
  obtain ⟨rfl, rfl, hsettled⟩ := h
  rcases hub.register_cases peer tick with ⟨-, heq⟩ | ⟨-, hub', heq, -⟩
  · have hnone : ({ hub, seats } : House).letIn peer tick limits = { hub, seats } := by
      simp [House.letIn, House.happen, heq, House.deal]
    rw [heq, hnone]
    exact ⟨rfl, rfl, hsettled⟩
  · rw [heq]
    simp only [House.letIn, House.happen, heq, deal_among]
    refine ⟨rfl, by simp [Seat.deal], ?_⟩
    rw [List.forall_mem_append, List.forall_mem_singleton]
    exact ⟨fun seat hseat => (hsettled seat hseat).orderly, Seat.dropped_of_free rfl,
      fun hended => Bool.noConfusion hended⟩

/-- **Aborting clients**: they are doomed, and then dropped. -/
theorem Shows.dooms (h : house.Shows Seat.Settled hub links) (clients : List ClientId) :
    let abort := fun (l : Link) hub =>
      if clients.contains l.connection.client then l.abortServed true hub else (l, hub)
    ∃ house', (house.happen (.dooms clients)).Deals house' ∧
      house'.Shows Seat.Settled (Crowd.forEach abort links hub).2
        (Crowd.forEach abort links hub).1 := by
  intro abort
  obtain ⟨hub, seats⟩ := house
  obtain ⟨rfl, rfl, hsettled⟩ := h
  have hdoomed : ∀ seat ∈ seats.map (Seat.doom clients),
      (seat.link.isRunning = true → seat.doomed = clients.contains seat.client) ∧
        seat.begun = true := by
    intro seat' hseat'
    obtain ⟨seat, hseat, rfl⟩ := List.mem_map.1 hseat'
    refine ⟨fun hrun => ?_, (hsettled seat hseat).begun⟩
    simp only [Seat.doom, (hsettled seat hseat).orderly.free hrun, Bool.false_or]
    rfl
  obtain ⟨seats', hdeals, hlinks, hsettled'⟩ :=
    deals_forEach (Seat.can_drop clients.contains) [] _ hub hdoomed
  have hsame : (seats.map (Seat.doom clients)).map Seat.link = seats.map Seat.link :=
    List.map_map
  rw [hsame] at hdeals hlinks
  exact ⟨_, hdeals, rfl, hlinks, hsettled'⟩

end House

/-! ## What a server does -/

/-- Nobody is aborted when nobody is to be. -/
theorem Server.abortClients_nil (s : Server) : s.abortClients [] = s := by
  have hall (links : List Link) (hub : Hub) :
      abortAll (fun id => ([] : List Client).any fun c => c.id == id) links hub = (links, hub) := by
    induction links with
    | nil => rfl
    | cons l links ih =>
      simp only [abortAll, List.any_nil, Bool.false_eq_true, if_false] at ih ⊢
      rw [ih]
  simp only [abortClients, hall]

theorem Server.tick_runChore (chore : Chore) (s : Server) : (runChore chore s).2.tick = s.tick := by
  cases chore with
  | cron =>
    simp only [runChore, runCron]
    split <;> rfl
  | _ => rfl

theorem Server.tick_look (s : Server) (deadline : Nat) : (s.look deadline).tick = s.tick := by
  unfold look
  split <;> rfl

/-- How far a site is that does what a server does. Between being told to
stop and its first look at the clients, the deadline is as good as set. -/
def Course.Agrees (maxIdle tick : Nat) (course : Course) : Stage → Prop
  | .serving => course = .serving
  | .draining _ deadline =>
    course = .draining deadline ∨ course = .told ∧ ∃ since ≤ tick, deadline = since + maxIdle
  | .over => course = .finished

theorem Course.Agrees.later {maxIdle tick tick' : Nat} {course : Course} {stage : Stage}
    (h : course.Agrees maxIdle tick stage) (htick : tick ≤ tick') :
    course.Agrees maxIdle tick' stage := by
  cases stage with
  | draining look deadline =>
    refine h.imp_right fun ⟨htold, since, hle, hdeadline⟩ => ?_
    exact ⟨htold, since, Nat.le_trans hle htick, hdeadline⟩
  | _ => exact h

/-- A site with such seats has come to what a server is. -/
structure Site.Shows (site : Site) (P : Seat → Prop) (s : Server) : Prop where
  settings : site.settings = s.settings
  house : site.house.Shows P s.hub s.links
  stopRaised : site.stopRaised = s.stopRaised
  course : site.course.Agrees s.settings.maxIdle s.tick s.stage

/-- Some moves bring a site to what a server is. -/
def Site.Reaches (site : Site) (s : Server) : Prop :=
  ∃ moves, (site.follow moves).Shows Seat.Settled s

namespace Site

variable {site : Site} {P : Seat → Prop} {s s' : Server}

theorem Shows.reaches (h : site.Shows Seat.Settled s) : site.Reaches s := ⟨[], h⟩

theorem Reaches.of_follow (moves : List Move) (h : (site.follow moves).Reaches s) :
    site.Reaches s := by
  obtain ⟨more, hmore⟩ := h
  refine ⟨moves ++ more, ?_⟩
  rw [follow_append]
  exact hmore

theorem Reaches.of_happen (move : Move) (h : (site.happen move).Reaches s) : site.Reaches s :=
  .of_follow [move] h

theorem Reaches.trans (h : site.Reaches s)
    (hnext : ∀ {site : Site}, site.Shows Seat.Settled s → site.Reaches s') : site.Reaches s' := by
  obtain ⟨moves, hmoves⟩ := h
  exact .of_follow moves (hnext hmoves)

theorem Reaches.of_deals {house : House} (hdeals : site.house.Deals house)
    (h : ({ site with house } : Site).Reaches s) : site.Reaches s := by
  obtain ⟨dealings, rfl⟩ := hdeals
  refine .of_follow (dealings.map fun d => .deals d.1 d.2) ?_
  have hfollow : site.follow (dealings.map fun d => .deals d.1 d.2) =
      { site with house := dealings.foldl (fun house d => house.deal d.1 d.2) site.house } := by
    clear h
    induction dealings generalizing site with
    | nil => rfl
    | cons d dealings ih => exact ih
  rw [hfollow]
  exact h

/-- Time may pass. -/
theorem Shows.later (h : site.Shows P s) {tick : Nat} (htick : s.tick ≤ tick) :
    site.Shows P { s with tick } :=
  ⟨h.settings, h.house, h.stopRaised, h.course.later htick⟩

/-- What is done with all links. -/
theorem Shows.forEach (h : site.Shows P s) {deal : Link → Hub → Link × Hub}
    (hcan : Seat.Can P deal) :
    site.Reaches { s with
      links := (Crowd.forEach deal s.links s.hub).1
      hub := (Crowd.forEach deal s.links s.hub).2 } := by
  obtain ⟨house, hdeals, hhouse⟩ := h.house.forEach hcan
  exact .of_deals hdeals (Shows.reaches ⟨h.settings, hhouse, h.stopRaised, h.course⟩)

theorem Shows.orderly (h : site.Shows Seat.Settled s) : site.Shows Seat.Orderly s :=
  ⟨h.settings, h.house.orderly, h.stopRaised, h.course⟩

/-- Every link goes on until it waits, so every task has a turn. -/
theorem Shows.settle (h : site.Shows Seat.Orderly s) : site.Reaches s.settle := by
  have hall := h.forEach (Seat.can_serve s.notice s.moment)
  rw [← Server.serveAll_eq] at hall
  exact hall

/-- **Aborting clients** dooms them and then drops them. -/
theorem Shows.dooms (h : site.Shows Seat.Settled s) (clients : List Client) :
    ∃ house, (site.house.happen (.dooms (clients.map Client.id))).Deals house ∧
      house.Shows Seat.Settled (s.abortClients clients).hub (s.abortClients clients).links := by
  obtain ⟨house, hdeals, hhouse⟩ := h.house.dooms (clients.map Client.id)
  have hchosen (l : Link) : (clients.map Client.id).contains l.connection.client =
      clients.any fun c => c.id == l.connection.client := by
    rw [Bool.eq_iff_iff]
    simp
  simp only [hchosen] at hhouse
  rw [← Server.abortAll_eq fun id => clients.any fun c => c.id == id] at hhouse
  exact ⟨house, hdeals, hhouse⟩

/-- **A chore is a move**, and the dealings it leads to. -/
theorem Shows.runChore (h : site.Shows Seat.Settled s) (hserving : s.stage = .serving)
    (chore : Chore) : site.Reaches (Server.runChore chore s).2 := by
  have hcourse : site.course = .serving := by
    have hagrees := h.course
    rw [hserving] at hagrees
    exact hagrees
  have hopen : site.course.isOpen = true := by
    rw [hcourse]
    rfl
  refine .of_happen (.runs chore s.moment s.measured) ?_
  simp only [happen, hopen, if_true]
  cases chore with
  | cron =>
    have hhouse := h.house.keeps (.cron s.wall)
    have hnot : ¬ site.course = .told := by
      rw [hcourse]
      exact Course.noConfusion
    simp only [run, if_neg hnot, inHouse, h.stopRaised, Server.runChore, Server.runCron]
    split
    · exact Shows.reaches ⟨h.settings, hhouse, rfl, .inr ⟨rfl, s.tick, Nat.le_refl _, rfl⟩⟩
    · exact Shows.reaches ⟨h.settings, hhouse, rfl, h.course⟩
  | expire =>
    exact Shows.reaches ⟨h.settings, h.house.keeps .expire, h.stopRaised, h.course⟩
  | evict =>
    have hhouse := h.house.keeps (.evict s.measured.1 s.measured.2)
    exact Shows.reaches ⟨h.settings, hhouse, h.stopRaised, h.course⟩
  | reap =>
    obtain ⟨house, hdeals, hhouse⟩ := h.dooms (s.hub.clients.idle s.tick s.settings.maxIdle)
    simp only [run, inHouse, h.house.hub_eq, h.settings]
    exact .of_deals hdeals (Shows.reaches ⟨rfl, hhouse, h.stopRaised, h.course⟩)
  | report => exact h.reaches

/-- **Ending a server**: a site dooms the clients that are left, drops them,
and destroys every item. -/
theorem Shows.close (h : site.Shows Seat.Settled s) : site.close.Reaches s.conclude := by
  obtain ⟨house, hdeals, hhouse⟩ := h.dooms s.hub.clients.served
  simp only [Site.close, h.house.hub_eq]
  split
  · next hnone =>
    have hsame : s.abortClients s.hub.clients.served = s := by
      rw [hnone]
      exact s.abortClients_nil
    simp only [Server.conclude, hsame]
    exact Shows.reaches ⟨h.settings, h.house.keeps .clear, h.stopRaised, rfl⟩
  · refine .of_deals hdeals (.of_happen (.wakes 0) (Shows.reaches ?_))
    exact ⟨h.settings, hhouse.keeps .clear, h.stopRaised, rfl⟩

/-- A look at the clients. -/
theorem Shows.look (h : site.Shows Seat.Settled s) {look deadline : Nat}
    (hstage : s.stage = .draining look deadline) : site.Reaches (s.look deadline) := by
  have hlook {site : Site} (h : site.Shows Seat.Settled s)
      (hcourse : site.course = .draining deadline) : site.Reaches (s.look deadline) := by
    refine .of_happen (.wakes s.tick) ?_
    simp only [happen, wake, hcourse, drain, h.house.hub_eq, Server.look]
    split
    · exact h.close
    · exact Shows.reaches ⟨h.settings, h.house, h.stopRaised, .inl rfl⟩
  have hagrees := h.course
  rw [hstage] at hagrees
  rcases hagrees with hcourse | ⟨hcourse, since, hle, rfl⟩
  · exact hlook h hcourse
  · refine .of_happen (.wakes since) ?_
    simp only [happen, wake, hcourse, h.settings, drain, h.house.hub_eq]
    split
    · next hdone =>
      have hdone' : s.hub.clients.size = 0 ∨ since + s.settings.maxIdle ≤ s.tick :=
        hdone.imp_right fun hdeadline => Nat.le_trans hdeadline hle
      simp only [Server.look, if_pos hdone']
      exact h.close
    · exact hlook ⟨rfl, h.house, h.stopRaised, by rw [hstage]; exact .inl rfl⟩ rfl

/-- The next thing to happen. It happens before the limit, and does not
change the time. -/
theorem Shows.nextEvent (h : site.Shows Seat.Settled s') {limit time : Nat}
    {change : Server → Server}
    (hnext : s.nextEvent? limit = some (time, change)) (hstage : s'.stage = s.stage) :
    site.Reaches (change s') ∧ time < limit ∧ (change s').tick = s'.tick := by
  unfold Server.nextEvent? at hnext
  split at hnext
  · next hserving =>
    obtain ⟨⟨t, rest⟩, hdue, heq⟩ := Option.map_eq_some_iff.1 hnext
    cases heq
    have hchore := h.runChore (hstage.trans hserving) t.label
    have htick := Server.tick_runChore t.label s'
    refine ⟨?_, Timers.next?_due hdue, ?_⟩
    · simp only
      split <;> next hrun =>
        rw [hrun] at hchore
        exact hchore.trans fun h => Shows.reaches ⟨h.settings, h.house, h.stopRaised, h.course⟩
    · simp only
      split <;> next hrun =>
        rw [hrun] at htick
        exact htick
  · next look deadline hdraining =>
    split at hnext
    · next hlt =>
      cases hnext
      exact ⟨h.look (hstage.trans hdraining), hlt, Server.tick_look s' _⟩
    · cases hnext
  · cases hnext

/-- **While time passes, a server does what a site can do.** -/
theorem Shows.elapse (h : site.Shows Seat.Settled s) (millis : Nat) :
    site.Reaches (s.elapse millis) := by
  unfold Server.elapse
  generalize 6 * (millis + 2) = events
  have hle : s.tick ≤ s.tick + millis := Nat.le_add_right _ _
  generalize s.tick + millis = limit at *
  induction events generalizing s site with
  | zero => exact (h.later hle).reaches
  | succ events ih =>
    unfold Server.elapseFor
    split
    · exact (h.later hle).reaches
    · next time change hnext =>
      have hlater := h.later (Nat.le_max_left s.tick time)
      obtain ⟨hreaches, hlt, htick⟩ := hlater.nextEvent hnext rfl
      refine (hreaches.trans fun h => h.orderly.settle).trans fun hsettled => ih hsettled ?_
      exact Nat.le_trans (Nat.le_of_eq htick) (Nat.max_le.2 ⟨hle, Nat.le_of_lt hlt⟩)

/-- A client that comes to a server that serves. -/
theorem Shows.accept (h : site.Shows Seat.Settled s) (hserving : s.stage = .serving)
    (peer : String) : site.Reaches (s.accept peer).2 := by
  have hopen : site.course.isOpen = true := by
    have hagrees := h.course
    rw [hserving] at hagrees
    rw [show site.course = .serving from hagrees]
    rfl
  have hlimits : site.settings.connectionLimits = s.settings.connectionLimits := by rw [h.settings]
  have hcomes := h.house.letIn peer s.tick s.settings.connectionLimits
  refine .of_happen (.accepts peer s.tick) ?_
  simp only [happen, hopen, if_true, hlimits]
  unfold Server.accept
  split
  · next hregister =>
    simp only [hregister] at hcomes
    exact Shows.reaches ⟨h.settings, hcomes, h.stopRaised, h.course⟩
  · next id hub hregister =>
    simp only [hregister] at hcomes
    let link : Link := { connection := { client := id, limits := s.settings.connectionLimits } }
    let house := site.house.letIn peer s.tick s.settings.connectionLimits
    have hshows : Shows { site with house } Seat.Orderly
        { s with hub := hub.attach id, links := s.links ++ [link] } :=
      ⟨h.settings, hcomes, h.stopRaised, h.course⟩
    exact hshows.settle

theorem Shows.onLink (h : site.Shows Seat.Settled s) (client : ClientId) {change : Link → Link}
    (hcan : Seat.Can Seat.Settled fun l hub => (change l, hub)) :
    site.Reaches (s.onLink client change) := by
  have hall := h.forEach (hcan.ite fun l => l.connection.client = client)
  rw [← Server.map_ite_eq change fun l => l.connection.client = client] at hall
  exact hall.trans fun h => h.orderly.settle

end Site

namespace Server

/-- Does a deed if it can be done: a server accepts clients only while it
serves. -/
def attempt (s : Server) : Deed → Server
  | .accept peer => if s.stage = .serving then s.perform (.accept peer) else s
  | d => s.perform d

/-- What a server has come to that begins and to which some deeds are done. -/
def after (settings : Settings) (wall : Int) (measured : Nat × Nat) (deeds : List Deed) : Server :=
  deeds.foldl attempt (start settings wall measured)

end Server

theorem Site.Shows.attempt {site : Site} {s : Server} (h : site.Shows Seat.Settled s)
    (d : Server.Deed) : site.Reaches (s.attempt d) := by
  cases d with
  | accept peer =>
    simp only [Server.attempt]
    split
    · next hserving => exact h.accept hserving peer
    · exact h.reaches
  | deliver client piece =>
    exact h.onLink client (Seat.can_relink (.arrives piece) (fun _ _ => rfl) fun _ => rfl)
  | setInput client input =>
    refine h.onLink client (Seat.can_relink (.hears input) (fun _ _ => rfl) fun l => ?_)
    exact (l.setInput_same input).2
  | setRoom client room =>
    refine h.onLink client (Seat.can_relink (.takes room) (fun _ _ => rfl) fun l => ?_)
    exact (l.setRoom_same room).2
  | elapse wall measured millis =>
    have hshows : site.Shows Seat.Settled { s with wall, measured } :=
      ⟨h.settings, h.house, h.stopRaised, h.course⟩
    exact hshows.elapse millis
  | raiseStop =>
    exact .of_happen .raisesStop (Shows.reaches ⟨h.settings, h.house, rfl, h.course⟩)

namespace Server

variable (settings : Settings) (wall : Int) (measured : Nat × Nat) (deeds : List Deed)

/-- **What a server comes to, a site comes to**, one move after the other. -/
theorem site_of_deeds :
    (Site.start settings wall).Reaches (after settings wall measured deeds) := by
  have hrun {site : Site} {s : Server} (h : site.Shows Seat.Settled s) :
      site.Reaches (deeds.foldl attempt s) := by
    induction deeds generalizing site s with
    | nil => exact h.reaches
    | cons d deeds ih => exact (h.attempt d).trans ih
  exact hrun ⟨rfl, ⟨rfl, rfl, fun _ hseat => absurd hseat List.not_mem_nil⟩, rfl, rfl⟩

/-- **The table of a server tells who is still served**, and its counters
tell how many these are and how many clients there have been. -/
theorem clients_after : let s := after settings wall measured deeds
    let served := s.links.filter Link.isRunning
    s.hub.clients.entries.map Client.id = served.map (fun l => l.connection.client) ∧
      s.hub.store.counters.counted = (served.length, s.links.length) := by
  intro s served
  obtain ⟨moves, hshows⟩ := site_of_deeds settings wall measured deeds
  have h := ((Site.sound_start settings wall).follow moves).house
  obtain ⟨hhub, hlinks, hsettled⟩ := hshows.house
  generalize ((Site.start settings wall).follow moves).house = house at h hhub hlinks hsettled
  have hserved : served = (house.seats.filter fun seat => seat.link.isRunning).map Seat.link := by
    simp only [served, s, ← hlinks, List.filter_map]
    rfl
  have hentries : s.hub.clients.entries =
      (house.seats.filter fun seat => seat.link.isRunning).map Seat.entry := by
    rw [← hhub, h.entries, Seat.entries,
      Seat.filter_isSeated fun seat hseat => (hsettled seat hseat).not_unserved]
  refine ⟨?_, ?_⟩
  · rw [hentries, hserved, List.map_map, List.map_map]
    rfl
  · have hcounted := h.counted
    rw [hhub] at hcounted
    rw [hcounted, Clients.size, hentries, hserved, List.length_map, List.length_map,
      ← hlinks, List.length_map]

/-- **Nothing is left when a server is over**, locked or not. -/
theorem cleared_of_over (hover : (after settings wall measured deeds).stage = .over) :
    (after settings wall measured deeds).hub.store.Cleared := by
  obtain ⟨moves, hshows⟩ := site_of_deeds settings wall measured deeds
  have hcourse := hshows.course
  rw [hover] at hcourse
  rw [← hshows.house.hub_eq]
  exact ((Site.sound_start settings wall).follow moves).cleared hcourse

/-- A server stops while a client says nothing. It is told so, ends the link
at once, and is over after a look. -/
example :
    let s := after {} 100 (0, 0) [.accept "a", .raiseStop, .elapse 100 (0, 0) 200]
    s.stage = .over ∧ s.hub.clients.entries = [] ∧
      s.links.map Link.isRunning = [false] := by
  decide +kernel

end Server

end PrefixCache

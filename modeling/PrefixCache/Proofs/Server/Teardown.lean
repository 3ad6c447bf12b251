import PrefixCache.Proofs.Server.Seats
/-!
# Teardown is complete

A site is a house with what is going on around it: listeners that let
clients in, chores, the stop flag, and the main task, which sleeps until it
is told to stop. Tasks run one at a time, in any order: a move of a site is
what one of them does before it waits again. Once the main task has waited
for its clients it dooms those that are left. From then on everyone in the
table is doomed (`Site.Sound.emptying`), so nothing is answered any more,
and what the main task destroys at the end stays destroyed
(`teardown_is_complete`).
-/

namespace PrefixCache

/-! ## Sites -/

/-- How far the main task of a server has come. -/
inductive Course where
  | serving
  /-- A cron run has seen the stop flag, and the main task is told. -/
  | told
  /-- It waits for its clients, no longer than up to a deadline. -/
  | draining (deadline : Nat)
  /-- It has doomed the clients that were left, and lets others run. -/
  | closing
  /-- It has destroyed every item and returned. -/
  | finished
  deriving DecidableEq

/-- Listeners and chores have not been stopped yet. -/
def Course.isOpen : Course → Bool
  | serving | told => true
  | _ => false

/-- Whoever is left has been doomed. -/
def Course.isEmptying : Course → Bool
  | closing | finished => true
  | _ => false

/-- A house with what is going on around it. -/
structure Site where
  settings : Settings
  house : House
  stopRaised : Bool := false
  course : Course := .serving

/-- What one task does before it waits again. -/
inductive Move where
  /-- A listener lets a client in, if the table is not full. -/
  | accepts (peer : String) (tick : Nat)
  /-- Something happens to a connection. -/
  | deals (i : Nat) (d : Dealing)
  /-- A chore runs, when the machine has so much memory left and the process
  holds so much. -/
  | runs (chore : Chore) (m : Moment) (measured : Nat × Nat)
  | raisesStop
  /-- The main task looks what to do. -/
  | wakes (tick : Nat)

/-- The request that is answered while something happens to a connection. -/
def Seat.asked? (d : Dealing) (seat : Seat) : Option Request :=
  match d with
  | .steps _ _ => if seat.doomed then none else seat.link.asked?
  | _ => none

namespace House

/-- Lets a client in, and has a task serve it. -/
def letIn (house : House) (peer : String) (tick : Nat) (limits : ConnectionLimits) : House :=
  (house.happen (.registers peer tick limits)).deal house.seats.length .attaches

end House

namespace Site

/-- A site that begins. -/
def start (settings : Settings) (wall : Int) : Site :=
  { settings, house := { hub := Hub.ofSettings settings wall } }

/-- Something happens in the house. -/
def inHouse (site : Site) (affair : Affair) : Site :=
  { site with house := site.house.happen affair }

/-- A chore runs. The cron run looks at the stop flag and, when it is raised,
tells the main task and does not run again. -/
def run (site : Site) (chore : Chore) (m : Moment) (measured : Nat × Nat) : Site :=
  match chore with
  | .cron =>
    if site.course = .told then site
    else
      let site := site.inHouse (.keeps (.cron m.wall))
      if site.stopRaised then { site with course := .told } else site
  | .expire => site.inHouse (.keeps .expire)
  | .evict => site.inHouse (.keeps (.evict measured.1 measured.2))
  | .reap =>
    let idle := site.house.hub.clients.idle m.tick site.settings.maxIdle
    site.inHouse (.dooms (idle.map Client.id))
  | .report => site

/-- Destroys every item and returns. -/
def clear (site : Site) : Site := { site.inHouse (.keeps .clear) with course := .finished }

/-- Dooms the clients that are left, or goes on at once if none is. -/
def close (site : Site) : Site :=
  let left := site.house.hub.clients.served
  if left = [] then site.clear
  else { site.inHouse (.dooms (left.map Client.id)) with course := .closing }

/-- Looks whether it has waited long enough for clients. -/
def drain (site : Site) (tick deadline : Nat) : Site :=
  if site.house.hub.clients.size = 0 ∨ deadline ≤ tick then site.close
  else { site with course := .draining deadline }

/-- What the main task does when it is woken. -/
def wake (site : Site) (tick : Nat) : Site :=
  match site.course with
  | .serving => site
  | .told => site.drain tick (tick + site.settings.maxIdle)
  | .draining deadline => site.drain tick deadline
  | .closing => site.clear
  | .finished => site

/-- What happens. -/
def happen (site : Site) : Move → Site
  | .accepts peer tick =>
    if site.course.isOpen then
      { site with house := site.house.letIn peer tick site.settings.connectionLimits }
    else site
  | .deals i d => site.inHouse (.deals i d)
  | .runs chore m measured => if site.course.isOpen then site.run chore m measured else site
  | .raisesStop => { site with stopRaised := true }
  | .wakes tick => site.wake tick

/-- What happens one after the other. -/
def follow (site : Site) (moves : List Move) : Site := moves.foldl happen site

theorem follow_append (site : Site) (moves later : List Move) :
    site.follow (moves ++ later) = (site.follow moves).follow later :=
  List.foldl_append

/-- The request that a move answers. -/
def asked? (site : Site) : Move → Option Request
  | .deals i d => site.house.seats[i]?.bind (Seat.asked? d)
  | _ => none

/-- The requests that are answered, one after the other. -/
def requests : Site → List Move → List Request
  | _, [] => []
  | site, move :: moves => (site.asked? move).toList ++ requests (site.happen move) moves

end Site

/-! ## The store of a site -/

namespace Store

variable {s s' s'' : Store}

/-- The stores differ at most in figures that are not about items. -/
structure SameItems (s s' : Store) : Prop where
  trie : s'.trie = s.trie
  books : s.counters.SameBooks s'.counters

theorem SameItems.refl (s : Store) : s.SameItems s := ⟨rfl, rfl, rfl, rfl, rfl⟩

theorem Sound.same (h : s.Sound) (hs : s.SameItems s') : s'.Sound := h.rebook hs.trie hs.books

theorem Sound.answer (h : s.Sound) (fields : FieldLimits) (wall : Int) (r : Request) :
    (s.answer fields wall r).2.Sound := by
  have hcounted : (s.setClock wall).countRequest.Sound := h.rebook rfl ⟨rfl, rfl, rfl, rfl⟩
  unfold Store.answer dispatch
  cases Command.ofRequest fields r with
  | error refusal => exact hcounted
  | ok command =>
    simp only [command.run_snd]
    cases command.operation? with
    | none => exact hcounted
    | some op => exact (Operation.upholds_run hcounted op).sound

theorem Sound.answerAny (h : s.Sound) (fields : FieldLimits) (wall : Int)
    (asked : Option Request) : (s.answerAny fields wall asked).Sound := by
  cases asked with
  | none => exact h
  | some r => exact h.answer fields wall r

theorem Sound.keep (h : s.Sound) (u : Upkeep) : (s.keep u).Sound := by
  cases u with
  | cron wall => exact h.rebook rfl ⟨rfl, rfl, rfl, rfl⟩
  | expire => exact (upholds_expireSweep h).sound
  | evict available resident =>
    have hmeasured : Store.Sound { s with counters := { s.counters with available, resident } } :=
      h.rebook rfl ⟨rfl, rfl, rfl, rfl⟩
    exact (upholds_memorySweep hmeasured).sound
  | clear => exact (upholds_destroyAll h).sound

/-- Nothing is in the store, and it is counted so. -/
structure Cleared (s : Store) : Prop where
  trie : s.trie = .empty
  items : s.counters.items = 0
  compressedItems : s.counters.compressedItems = 0
  memoryUsed : s.counters.memoryUsed = 0

theorem Cleared.same (h : s.Cleared) (hs : s.SameItems s') : s'.Cleared :=
  ⟨hs.trie.trans h.trie, hs.books.items.trans h.items,
    hs.books.compressedItems.trans h.compressedItems, hs.books.memoryUsed.trans h.memoryUsed⟩

/-- **Whatever is in a store**, locked or not, it is cleared. -/
theorem Sound.cleared (h : s.Sound) : (s.keep .clear).Cleared := by
  obtain ⟨hitems, hcompressed, hmemory⟩ := counters_destroyAll h
  refine ⟨?_, hitems, hcompressed, hmemory⟩
  rw [Store.keep, destroyAll_snd]

end Store

theorem Hub.sameItems_unregister (h : Hub) (id : ClientId) :
    h.store.SameItems (h.unregister id).store := by
  unfold unregister
  split
  · exact ⟨rfl, rfl, rfl, rfl, rfl⟩
  · exact .refl _

theorem Hub.sameItems_register (h : Hub) (peer : String) (tick : Nat) :
    h.store.SameItems (h.register peer tick).2.store := by
  unfold register
  split
  · exact .refl _
  · exact ⟨rfl, rfl, rfl, rfl, rfl⟩

namespace Seat

variable (d : Dealing) (seat : Seat) (hub : Hub)

/-- A connection that has ended or was aborted answers nothing. -/
theorem asked?_of_still (h : seat.link.isRunning = true → seat.doomed = true) :
    seat.asked? d = none := by
  cases d with
  | steps notice m =>
    simp only [asked?]
    split
    · rfl
    · next hdoomed =>
      refine seat.link.asked?_of_not_running fun hrun => hdoomed ?_
      exact h (Link.isRunning_iff.2 hrun)
  | _ => rfl

/-- **What happens to a connection changes items only by answering.** -/
theorem sameItems_deal : ∃ wall,
    (hub.store.answerAny hub.fields wall (seat.asked? d)).SameItems (seat.deal d hub).2.store := by
  cases d with
  | steps notice m =>
    refine ⟨m.wall, ?_⟩
    simp only [deal, step]
    by_cases hgoing : seat.link.isRunning = true ∧ seat.doomed = false
    · have hasked : seat.asked? (.steps notice m) = seat.link.asked? := by
        simp only [asked?, hgoing.2, Bool.false_eq_true, if_false]
      rw [if_pos hgoing, hasked, ← (seat.link.step_store hub notice m).1]
      cases hruns : (seat.link.step hub notice m).1.isRunning with
      | true => exact .refl _
      | false => exact Hub.sameItems_unregister _ _
    · have hnone := asked?_of_still (.steps notice m) seat fun hrun => by
        by_contra hdoomed
        exact hgoing ⟨hrun, Bool.eq_false_iff.2 hdoomed⟩
      rw [if_neg hgoing, hnone]
      exact .refl _
  | drops =>
    refine ⟨0, ?_⟩
    simp only [deal, drop, Link.abortServed]
    split
    · split
      · split
        · exact Hub.sameItems_unregister _ _
        · exact .refl _
      · exact .refl _
    · exact .refl _
  | _ => exact ⟨0, .refl _⟩

theorem doomed_doom {clients : List ClientId} (h : seat.client ∈ clients) :
    (seat.doom clients).doomed = true := by
  simp only [doom, List.contains_iff_mem.2 h, Bool.or_true]

end Seat

namespace House

variable {house : House}

/-- **What happens to a connection leaves a sound store.** -/
theorem sound_deal (h : house.hub.store.Sound) (i : Nat) (d : Dealing) :
    (house.deal i d).hub.store.Sound := by
  unfold deal
  cases house.seats[i]? with
  | none => exact h
  | some seat =>
    obtain ⟨wall, hsame⟩ := seat.sameItems_deal d house.hub
    exact (h.answerAny house.hub.fields wall (seat.asked? d)).same hsame

/-- What happens to connections that are still changes no item. -/
theorem sameItems_deal
    (h : ∀ seat ∈ house.seats, seat.link.isRunning = true → seat.doomed = true) (i : Nat)
    (d : Dealing) : house.hub.store.SameItems (house.deal i d).hub.store := by
  unfold deal
  cases hi : house.seats[i]? with
  | none => exact .refl _
  | some seat =>
    obtain ⟨wall, hsame⟩ := seat.sameItems_deal d house.hub
    rw [seat.asked?_of_still d (h seat (List.mem_of_getElem? hi))] at hsame
    exact hsame

/-- Whatever happens leaves a sound store. -/
theorem sound_happen (h : house.hub.store.Sound) (affair : Affair) :
    (house.happen affair).hub.store.Sound := by
  cases affair with
  | registers peer tick limits =>
    have hsame := house.hub.sameItems_register peer tick
    simp only [happen]
    split
    · exact h
    · next hregister =>
      rw [hregister] at hsame
      exact h.same hsame
  | deals i d => exact sound_deal h i d
  | dooms clients => exact h
  | keeps u => exact h.keep u

/-- A client that is let in is served. -/
theorem attached_letIn (h : ∀ seat ∈ house.seats, seat.attached = true) (peer : String)
    (tick : Nat) (limits : ConnectionLimits) :
    ∀ seat ∈ (house.letIn peer tick limits).seats, seat.attached = true := by
  rcases house.hub.register_cases peer tick with ⟨-, heq⟩ | ⟨-, hub, heq, -⟩
  · simpa [letIn, happen, heq, deal] using h
  · simp only [letIn, happen, heq, deal, List.getElem?_concat_length,
      List.set_append_right _ _ (Nat.le_refl _), Nat.sub_self, List.set_cons_zero]
    exact List.forall_mem_append.2 ⟨h, List.forall_mem_singleton.2 rfl⟩

end House

/-! ## What is known of a site -/

namespace Site

/-- Whatever a site comes to, its house is in order and its store is sound,
and a task serves everyone that was let in. Once the main task has waited
for its clients, those that are left are doomed; when it has
finished, nothing is in the store. -/
structure Sound (settings : Settings) (site : Site) : Prop where
  settings_eq : site.settings = settings
  house : site.house.Sound settings.maxClients
  store : site.house.hub.store.Sound
  attached : ∀ seat ∈ site.house.seats, seat.attached = true
  emptying : site.course.isEmptying = true →
    ∀ seat ∈ site.house.seats, seat.link.isRunning = true → seat.doomed = true
  cleared : site.course = .finished → site.house.hub.store.Cleared

variable {settings : Settings} {site : Site}

theorem sound_start (settings : Settings) (wall : Int) : (start settings wall).Sound settings where
  settings_eq := rfl
  house := House.sound_start settings wall
  store := Store.sound_empty _ wall
  attached _ hseat := absurd hseat List.not_mem_nil
  emptying _ _ hseat := absurd hseat List.not_mem_nil
  cleared hfinished := Course.noConfusion hfinished

/-- Listeners and chores are stopped before anyone is doomed. -/
theorem not_emptying_of_isOpen {course : Course} (h : course.isOpen = true) :
    course.isEmptying = false := by
  cases course <;> first | rfl | cases h

theorem emptying_of_finished {course : Course} (h : course = .finished) :
    course.isEmptying = true := by
  rw [h]
  rfl

namespace Sound

/-- While listeners and chores are not stopped, only the house matters. -/
theorem of_open (h : site.Sound settings) {site' : Site}
    (hsettings : site'.settings = site.settings) (hcourse : site'.course.isOpen = true)
    (hhouse : site'.house.Sound settings.maxClients) (hstore : site'.house.hub.store.Sound)
    (hattached : ∀ seat ∈ site'.house.seats, seat.attached = true) : site'.Sound settings where
  settings_eq := hsettings.trans h.settings_eq
  house := hhouse
  store := hstore
  attached := hattached
  emptying hlate := by
    rw [not_emptying_of_isOpen hcourse] at hlate
    cases hlate
  cleared hfinished := by
    rw [hfinished] at hcourse
    cases hcourse

theorem attached_dooms (h : site.Sound settings) (clients : List ClientId) :
    ∀ seat ∈ site.house.seats.map (Seat.doom clients), seat.attached = true := by
  intro seat' hseat'
  obtain ⟨seat, hseat, rfl⟩ := List.mem_map.1 hseat'
  exact h.attached seat hseat

theorem accepts (h : site.Sound settings) (peer : String) (tick : Nat) :
    (site.happen (.accepts peer tick)).Sound settings := by
  simp only [Site.happen]
  split
  · next hopen =>
    let comes : Affair := .registers peer tick site.settings.connectionLimits
    have hhouse := (h.house.happen comes).deal site.house.seats.length .attaches
    have hstore :=
      House.sound_deal (House.sound_happen h.store comes) site.house.seats.length .attaches
    exact h.of_open rfl hopen hhouse hstore (House.attached_letIn h.attached peer tick _)
  · exact h

theorem deals (h : site.Sound settings) (i : Nat) (d : Dealing) :
    (site.happen (.deals i d)).Sound settings where
  settings_eq := h.settings_eq
  house := h.house.deal i d
  store := House.sound_deal h.store i d
  attached := House.forall_deal h.attached i d fun seat hattached =>
    (seat.deal_keeps d site.house.hub).2.2 hattached
  emptying hlate := House.forall_deal (h.emptying hlate) i d fun seat hdoomed hrun => by
    rw [(seat.deal_keeps d site.house.hub).2.1]
    exact hdoomed (seat.isRunning_of_deal d site.house.hub hrun)
  cleared hfinished :=
    (h.cleared hfinished).same
      (House.sameItems_deal (h.emptying (emptying_of_finished hfinished)) i d)

/-- What happens in the house by a chore. -/
theorem inHouse (h : site.Sound settings) (hopen : site.course.isOpen = true) {affair : Affair}
    (haffair : ∀ seat ∈ (site.house.happen affair).seats, seat.attached = true) :
    (site.inHouse affair).Sound settings :=
  h.of_open rfl hopen (h.house.happen affair) (House.sound_happen h.store affair) haffair

theorem runs (h : site.Sound settings) (chore : Chore) (m : Moment) (measured : Nat × Nat) :
    (site.happen (.runs chore m measured)).Sound settings := by
  simp only [Site.happen]
  split
  · next hopen =>
    have hkeeps (u : Upkeep) : (site.inHouse (.keeps u)).Sound settings :=
      h.inHouse hopen h.attached
    cases chore with
    | cron =>
      simp only [run]
      split
      · exact h
      · have hcron := hkeeps (.cron m.wall)
        split
        · exact hcron.of_open rfl rfl hcron.house hcron.store hcron.attached
        · exact hcron
    | expire => exact hkeeps .expire
    | evict => exact hkeeps (.evict measured.1 measured.2)
    | reap => exact h.inHouse hopen (h.attached_dooms _)
    | report => exact h
  · exact h

/-- **The store is cleared** when everyone who is left is doomed. -/
theorem clear (h : site.Sound settings)
    (hleft : ∀ seat ∈ site.house.seats, seat.link.isRunning = true → seat.doomed = true) :
    site.clear.Sound settings where
  settings_eq := h.settings_eq
  house := h.house.happen (.keeps .clear)
  store := House.sound_happen h.store (.keeps .clear)
  attached := h.attached
  emptying _ := hleft
  cleared _ := h.store.cleared

/-- **Whoever is left gets doomed**, since a task serves everyone in the
table. -/
theorem close (h : site.Sound settings) : site.close.Sound settings := by
  have hserved (seat : Seat) (hseat : seat ∈ site.house.seats) (hrun : seat.link.isRunning = true) :
      seat.entry ∈ site.house.hub.clients.served := by
    refine List.mem_filter.2 ⟨?_, h.attached seat hseat⟩
    rw [h.house.entries]
    exact List.mem_map_of_mem (List.mem_filter.2 ⟨hseat, Seat.isSeated_of_running hrun⟩)
  unfold Site.close
  simp only
  split
  · next hnone =>
    refine h.clear fun seat hseat hrun => ?_
    have hmem := hserved seat hseat hrun
    rw [hnone] at hmem
    cases hmem
  · let left := site.house.hub.clients.served.map Client.id
    refine ⟨h.settings_eq, h.house.happen (.dooms left), h.store, h.attached_dooms left,
      fun _ => ?_, fun hfinished => Course.noConfusion hfinished⟩
    intro seat' hseat' hrun
    obtain ⟨seat, hseat, rfl⟩ := List.mem_map.1 hseat'
    exact seat.doomed_doom (List.mem_map_of_mem (hserved seat hseat hrun))

theorem drain (h : site.Sound settings) (tick deadline : Nat) :
    (site.drain tick deadline).Sound settings := by
  unfold Site.drain
  split
  · exact h.close
  · exact ⟨h.settings_eq, h.house, h.store, h.attached, nofun, nofun⟩

theorem wakes (h : site.Sound settings) (tick : Nat) : (site.wake tick).Sound settings := by
  unfold wake
  split
  · exact h
  · exact h.drain _ _
  · exact h.drain _ _
  · next hcourse => exact h.clear (h.emptying (by rw [hcourse]; rfl))
  · exact h

/-- **Every move keeps a site sound.** -/
theorem happen (h : site.Sound settings) (move : Move) : (site.happen move).Sound settings := by
  cases move with
  | accepts peer tick => exact h.accepts peer tick
  | deals i d => exact h.deals i d
  | runs chore m measured => exact h.runs chore m measured
  | raisesStop => exact ⟨h.settings_eq, h.house, h.store, h.attached, h.emptying, h.cleared⟩
  | wakes tick => exact h.wakes tick

theorem follow (h : site.Sound settings) (moves : List Move) :
    (site.follow moves).Sound settings := by
  induction moves generalizing site with
  | nil => exact h
  | cons move moves ih => exact ih (h.happen move)

/-- **A client in the table has a task, and closing aborts it.** -/
theorem close_dooms (h : site.Sound settings) {c : Client}
    (hc : c ∈ site.house.hub.clients.entries) :
    c.served = true ∧ ∃ seat ∈ site.close.house.seats,
      seat.client = c.id ∧ seat.attached = true ∧ seat.doomed = true := by
  have hserved : c.served = true := by
    rw [h.house.entries] at hc
    obtain ⟨seat, hseat, rfl⟩ := List.mem_map.1 hc
    exact h.attached seat (List.mem_of_mem_filter hseat)
  have hleft : c ∈ site.house.hub.clients.served := List.mem_filter.2 ⟨hc, hserved⟩
  refine ⟨hserved, ?_⟩
  rw [h.house.entries] at hc
  obtain ⟨seat, hseat, rfl⟩ := List.mem_map.1 hc
  have hmem := List.mem_of_mem_filter hseat
  simp only [Site.close, if_neg (List.ne_nil_of_mem hleft)]
  exact ⟨_, List.mem_map_of_mem hmem, rfl, h.attached seat hmem,
    seat.doomed_doom (List.mem_map_of_mem hleft)⟩

/-- **Nothing is answered** once whoever is left was doomed. -/
theorem asked?_eq_none (h : site.Sound settings) (hlate : site.course.isEmptying = true)
    (move : Move) : site.asked? move = none := by
  cases move with
  | deals i d =>
    simp only [Site.asked?]
    cases hi : site.house.seats[i]? with
    | none => rfl
    | some seat => exact seat.asked?_of_still d (h.emptying hlate seat (List.mem_of_getElem? hi))
  | _ => rfl

end Sound

/-! ## How a site finishes -/

theorem emptying_close (site : Site) : site.close.course.isEmptying = true := by
  simp only [close]
  split <;> rfl

theorem course_drain (site : Site) (tick deadline : Nat) :
    (site.drain tick deadline).course = .draining deadline ∨
      (site.drain tick deadline).course.isEmptying = true := by
  unfold drain
  split
  · exact .inr site.emptying_close
  · exact .inl rfl

/-- There is one way to get past the wait for clients. -/
theorem wake_eq_close {tick : Nat} (hbefore : site.course.isEmptying = false)
    (hafter : (site.wake tick).course.isEmptying = true) : site.wake tick = site.close := by
  have hdrain {deadline : Nat} (h : (site.drain tick deadline).course.isEmptying = true) :
      site.drain tick deadline = site.close := by
    unfold drain at h ⊢
    split at h
    · next hdone => rw [if_pos hdone]
    · cases h
  cases hcourse : site.course with
  | serving =>
    simp only [wake, hcourse] at hafter
    cases hafter
  | told | draining deadline =>
    simp only [wake, hcourse] at hafter ⊢
    exact hdrain hafter
  | closing | finished =>
    rw [hcourse] at hbefore
    cases hbefore

theorem finished_wake (h : site.course.isEmptying = true) (tick : Nat) :
    (site.wake tick).course = .finished := by
  cases hcourse : site.course with
  | closing =>
    simp only [wake, hcourse]
    rfl
  | finished => simp only [wake, hcourse]
  | _ =>
    rw [hcourse] at h
    cases h

theorem happen_runs_of_closed (h : ¬ site.course.isOpen = true) (chore : Chore) (m : Moment)
    (measured : Nat × Nat) : site.happen (.runs chore m measured) = site := by
  rw [happen, if_neg h]

/-- Only the main task goes on once whoever is left was doomed. -/
theorem emptying_happen (h : site.course.isEmptying = true) (move : Move) :
    (site.happen move).course = site.course ∨ (site.happen move).course = .finished := by
  have hclosed : ¬ site.course.isOpen = true := fun hopen => by
    rw [not_emptying_of_isOpen hopen] at h
    cases h
  cases move with
  | accepts peer tick => exact .inl (by rw [happen, if_neg hclosed])
  | runs chore m measured => exact .inl (by rw [happen_runs_of_closed hclosed])
  | wakes tick => exact .inr (finished_wake h tick)
  | _ => exact .inl rfl

theorem finished_follow (h : site.course = .finished) (moves : List Move) :
    (site.follow moves).course = .finished := by
  induction moves generalizing site with
  | nil => exact h
  | cons move moves ih =>
    refine ih ?_
    rcases emptying_happen (emptying_of_finished h) move with hsame | hfinished
    · exact hsame.trans h
    · exact hfinished

/-- Nothing is answered any more. -/
theorem Sound.requests_eq_nil (h : site.Sound settings) (hlate : site.course.isEmptying = true)
    (moves : List Move) : site.requests moves = [] := by
  induction moves generalizing site with
  | nil => rfl
  | cons move moves ih =>
    rw [requests, h.asked?_eq_none hlate, Option.toList_none, List.nil_append]
    refine ih (h.happen move) ?_
    rcases emptying_happen hlate move with hsame | hfinished
    · rw [hsame]
      exact hlate
    · exact emptying_of_finished hfinished

/-- When the deadline has come, two looks are enough. -/
theorem finished_of_draining {deadline : Nat}
    (h : site.course = .draining deadline ∨ site.course.isEmptying = true) (tick : Nat) :
    ((site.wake deadline).wake tick).course = .finished := by
  rcases h with hcourse | hlate
  · refine finished_wake ?_ tick
    simp only [wake, hcourse, drain, if_pos (Or.inr (Nat.le_refl deadline))]
    exact site.emptying_close
  · exact finished_wake (emptying_of_finished (finished_wake hlate deadline)) tick

/-- The cron run tells the main task when the stop flag is raised. -/
theorem told_by_cron (h : site.course.isOpen = true) (m : Moment) (measured : Nat × Nat) :
    let site' := (site.happen .raisesStop).happen (.runs .cron m measured)
    site'.course = .told ∧ site'.settings = site.settings := by
  simp only [happen, h, if_true, run, inHouse]
  split
  · next htold => exact ⟨htold, rfl⟩
  · exact ⟨rfl, rfl⟩

/-- **A site finishes**, when the stop flag is raised, cron runs and the
main task is woken often and late enough. -/
theorem gets_finished (site : Site) : ∃ ticks : List Nat, ∀ m measured,
    (site.follow (.raisesStop :: .runs .cron m measured :: ticks.map .wakes)).course =
      .finished := by
  by_cases hopen : site.course.isOpen = true
  · refine ⟨[0, site.settings.maxIdle, 0], fun m measured => ?_⟩
    obtain ⟨htold, hsettings⟩ := told_by_cron hopen m measured
    refine finished_of_draining ?_ 0
    simp only [happen, wake] at htold hsettings ⊢
    rw [htold, hsettings, Nat.zero_add]
    exact course_drain _ 0 _
  · obtain ⟨deadline, hlate⟩ : ∃ deadline,
        site.course = .draining deadline ∨ site.course.isEmptying = true := by
      cases hcourse : site.course with
      | draining deadline => exact ⟨deadline, .inl rfl⟩
      | closing | finished => exact ⟨0, .inr rfl⟩
      | _ =>
        rw [hcourse] at hopen
        exact absurd rfl hopen
    refine ⟨[deadline, 0], fun m measured => finished_of_draining ?_ 0⟩
    have hraised : ¬ (site.happen .raisesStop).course.isOpen = true := hopen
    rw [happen_runs_of_closed hraised]
    exact hlate

end Site

/-- **Teardown is complete.** Consider a site that anything may have
happened in: clients came, connections went on, were heard from, ended or
were aborted, chores ran, and the stop flag was raised, in whatever order.
When its main task stops to wait for its clients, each that is still in the
table is served by a task, which is aborted. From then on, whatever happens,
no request is answered. Once the main task has finished, nothing is in the
store and it is counted so, for good, whatever was locked or had time left.
And it does finish when the stop flag is raised, a cron run sees it, and the
main task is woken often and late enough. -/
theorem teardown_is_complete (settings : Settings) (wall : Int) (moves : List Move) :
    let site := (Site.start settings wall).follow moves
    (∀ tick, let next := site.happen (.wakes tick)
      site.course.isEmptying = false → next.course.isEmptying = true →
      ∀ c ∈ site.house.hub.clients.entries, c.served = true ∧
        ∃ seat ∈ next.house.seats, seat.client = c.id ∧ seat.attached = true ∧ seat.doomed = true) ∧
    (site.course.isEmptying = true → ∀ later, site.requests later = []) ∧
    (site.course = .finished → ∀ later, let last := site.follow later
      last.course = .finished ∧ last.house.hub.store.trie = .empty ∧
      last.house.hub.store.counters.items = 0 ∧
      last.house.hub.store.counters.compressedItems = 0 ∧
      last.house.hub.store.counters.memoryUsed = 0) ∧
    ∃ ticks : List Nat, ∀ m measured,
      (site.follow (.raisesStop :: .runs .cron m measured :: ticks.map .wakes)).course =
        .finished := by
  intro site
  have h : site.Sound settings := (Site.sound_start settings wall).follow moves
  refine ⟨fun tick hbefore hafter c hc => ?_, h.requests_eq_nil, fun hfinished later => ?_,
    site.gets_finished⟩
  · rw [show site.happen (.wakes tick) = site.close from Site.wake_eq_close hbefore hafter]
    exact h.close_dooms hc
  · have hlast := Site.finished_follow hfinished later
    have hcleared := (h.follow later).cleared hlast
    exact ⟨hlast, hcleared.trie, hcleared.items, hcleared.compressedItems, hcleared.memoryUsed⟩

/-- A client stores an item and locks it, sends half a request more, and is
still there when the server stops. -/
def Move.lastMorning : List Move :=
  let step : Move := .deals 0 (.steps .running { wall := 100, tick := 1 })
  [.accepts "a" 0, .deals 0 (.arrives [7, 0, 0, 0, 1, 0, 57, 32, 98, 32, 104]),
    .deals 0 (.arrives [5, 0, 0, 0, 7, 0, 98, 32, 57, 19])] ++ List.replicate 12 step ++
  [.raisesStop, .runs .cron { wall := 100, tick := 5 } (0, 0), .wakes 5]

/-- The main task dooms such a client when the deadline has come. What then
arrives is not answered, and the item is destroyed, locked or not. -/
theorem locked_item_goes_with_the_server :
    let site := (Site.start { maxIdle := 10 } 100).follow Move.lastMorning
    let next := site.happen (.wakes 15)
    let rest : List Move :=
      [.deals 0 (.arrives [0, 0, 0, 19, 0]),
        .deals 0 (.steps .stopping { wall := 101, tick := 15 }), .wakes 15]
    (site.house.hub.store.trie.find? [98]).any (fun item => item.Locked 100) ∧
      site.course = .draining 15 ∧
      (∀ c ∈ site.house.hub.clients.entries, c.served = true ∧
        ∃ seat ∈ next.house.seats, seat.client = c.id ∧ seat.attached = true ∧
          seat.doomed = true) ∧
      next.course = .closing ∧ next.requests rest = [] ∧
      (next.follow rest).course = .finished ∧ (next.follow rest).house.hub.store.trie = .empty ∧
      (next.follow rest).house.hub.store.counters.items = 0 := by
  intro site next rest
  have hlocked : (site.house.hub.store.trie.find? [98]).any (fun item => item.Locked 100) := by
    decide +kernel
  have hopen : site.course = .draining 15 := by decide +kernel
  have hclosing : next.course = .closing := by decide +kernel
  have hfinished : (next.follow rest).course = .finished := by decide +kernel
  have hnext :
      (Site.start { maxIdle := 10 } 100).follow (Move.lastMorning ++ [.wakes 15]) = next := by
    rw [Site.follow_append]
    rfl
  have hdooms := (teardown_is_complete { maxIdle := 10 } 100 Move.lastMorning).1 15
    (congrArg Course.isEmptying hopen) (congrArg Course.isEmptying hclosing)
  have hsilent :=
    (teardown_is_complete { maxIdle := 10 } 100 (Move.lastMorning ++ [.wakes 15])).2.1
  have hcleared :=
    (teardown_is_complete { maxIdle := 10 } 100 (Move.lastMorning ++ [.wakes 15] ++ rest)).2.2.1
  rw [Site.follow_append, hnext] at hcleared
  rw [hnext] at hsilent
  obtain ⟨-, htrie, hitems, -⟩ := hcleared hfinished []
  exact ⟨hlocked, hopen, hdooms, hclosing,
    hsilent (congrArg Course.isEmptying hclosing) rest, hfinished, htrie, hitems⟩

end PrefixCache

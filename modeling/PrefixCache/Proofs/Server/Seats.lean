import PrefixCache.Proofs.Connection.Hearing
import PrefixCache.Proofs.Server.Figures
import PrefixCache.Proofs.Server.Schedule
/-!
# Who is seated

The table of clients and its two counts are kept up by hand: registering
adds an entry, and whatever ends a connection takes it out, once the task
that serves it has had its first turn. A house is a hub with all
connections that were ever admitted, those that have ended too. What may be
done with one of them changes its own entry, or ends it and takes the entry
out (`Seat.Dealt`), so the table is always the list of those that are seated
(`House.Sound`): of those that are served, the ones that have not ended.
Each of its entries says when its client was heard from last, as the steps of
its link tell (`Link.heard_step`).

A task that is aborted while it still waits for its first turn never serves
its connection, and has made nothing that would take the client out. Such a
seat is taken for good (`unserved_seat_is_never_free`).
-/

namespace PrefixCache

/-! ## Seats -/

/-- A connection that was admitted, whether it has ended or not. -/
structure Seat where
  link : Link
  peer : String
  /-- The table knows the task that is to serve it. -/
  attached : Bool := false
  /-- Its task has had its first turn. From then on its client leaves the
  table when the connection ends, however it ends. -/
  begun : Bool := false
  /-- Its task was aborted. It takes no more steps, and is dropped later. -/
  doomed : Bool := false
  /-- When its client was registered or, later, heard from last. -/
  heard : Nat

namespace Seat

/-- The number of its client. -/
def client (seat : Seat) : ClientId := seat.link.connection.client

/-- It has ended without having been served: its task was dropped before its
first turn. -/
def IsUnserved (seat : Seat) : Prop := seat.link.isRunning = false ∧ seat.begun = false

instance (seat : Seat) : Decidable seat.IsUnserved := inferInstanceAs (Decidable (_ ∧ _))

/-- Its client is in the table: the connection has not ended, or it has
without having been served. -/
def isSeated (seat : Seat) : Bool := seat.link.isRunning || !seat.begun

theorem isSeated_of_running {seat : Seat} (h : seat.link.isRunning = true) :
    seat.isSeated = true := by
  rw [isSeated, h, Bool.true_or]

theorem IsUnserved.isSeated {seat : Seat} (h : seat.IsUnserved) : seat.isSeated = true := by
  rw [Seat.isSeated, h.2, Bool.not_false, Bool.or_true]

/-- When nobody has ended without having been served, the seated are those
that have not ended. -/
theorem filter_isSeated {seats : List Seat} (h : ∀ seat ∈ seats, ¬ seat.IsUnserved) :
    seats.filter isSeated = seats.filter fun seat => seat.link.isRunning := by
  refine List.filter_congr fun seat hseat => ?_
  cases hrun : seat.link.isRunning with
  | true => exact isSeated_of_running hrun
  | false =>
    have hbegun : seat.begun = true := by
      by_contra hnot
      exact h seat hseat ⟨hrun, Bool.eq_false_iff.2 hnot⟩
    rw [Seat.isSeated, hrun, hbegun]
    rfl

/-- What the table has to hold about its client while it is seated. -/
def entry (seat : Seat) : Client :=
  { id := seat.client, peer := seat.peer, lastSeen := seat.heard, served := seat.attached }

/-- What the table has to hold about the clients of some seats. -/
def entries (seats : List Seat) : List Client := (seats.filter isSeated).map entry

@[simp] theorem entries_append (front back : List Seat) :
    entries (front ++ back) = entries front ++ entries back := by
  simp [entries]

theorem entries_cons_of_seated {seat : Seat} (h : seat.isSeated = true) (seats : List Seat) :
    entries (seat :: seats) = seat.entry :: entries seats := by
  simp [entries, h]

theorem entries_cons_of_left {seat : Seat} (h : seat.isSeated = false) (seats : List Seat) :
    entries (seat :: seats) = entries seats := by
  simp [entries, h]

theorem mem_of_mem_entries {seats : List Seat} {c : Client} (h : c ∈ entries seats) :
    c.id ∈ seats.map client := by
  obtain ⟨seat, hseat, rfl⟩ := List.mem_map.1 h
  exact List.mem_map_of_mem (List.mem_of_mem_filter hseat)

end Seat

/-- A hub with all connections that were ever admitted, in the order in
which they were. -/
structure House where
  hub : Hub
  seats : List Seat := []

/-- What can happen to one connection. -/
inductive Dealing where
  /-- Its task is entered in the table, and waits for its first turn. -/
  | attaches
  /-- A piece of its stream arrives. -/
  | arrives (piece : Bytes)
  /-- Its stream goes on, ends or breaks. -/
  | hears (input : Input)
  /-- Its stream takes so many bytes. -/
  | takes (room : Room)
  /-- It takes a step. If that ends it, its client leaves the table. -/
  | steps (notice : Notice) (m : Moment)
  /-- If it was aborted, its task is dropped, and its client leaves the
  table if the task had begun. -/
  | drops

/-- What can happen in a house. Seats go by their number. -/
inductive Affair where
  /-- A client asks for a seat, and gets one unless the table is full. -/
  | registers (peer : String) (tick : Nat) (limits : ConnectionLimits)
  | deals (i : Nat) (d : Dealing)
  /-- The tasks of some clients are aborted. -/
  | dooms (clients : List ClientId)
  | keeps (u : Upkeep)

namespace Seat

/-- Changes the link of a seat, and nothing else. -/
def relink (change : Link → Link) (seat : Seat) (hub : Hub) : Seat × Hub :=
  ({ seat with link := change seat.link }, hub)

/-- Lets a link that runs take a step, and takes the client out of the table
when it ends. -/
def step (notice : Notice) (m : Moment) (seat : Seat) (hub : Hub) : Seat × Hub :=
  if seat.link.isRunning ∧ seat.doomed = false then
    let (link, hub) := seat.link.step hub notice m
    let hears := Link.Hears seat.link.connection seat.link.wire link.wire
    ({ seat with link, begun := true, heard := if hears then m.tick else seat.heard },
      if link.isRunning then hub else hub.unregister seat.client)
  else (seat, hub)

/-- Drops the task of a link that was aborted. If the task had begun, the
client is taken out of the table; before its first turn there is nothing
that would do so, and the client stays. -/
def drop (seat : Seat) (hub : Hub) : Seat × Hub :=
  if seat.doomed then
    let (link, hub) := seat.link.abortServed seat.begun hub
    ({ seat with link }, hub)
  else (seat, hub)

/-- What happens to one connection. -/
def deal : Dealing → Seat → Hub → Seat × Hub
  | .attaches, seat, hub => ({ seat with attached := true }, hub.attach seat.client)
  | .arrives piece, seat, hub => relink (Link.deliver · piece) seat hub
  | .hears input, seat, hub => relink (Link.setInput · input) seat hub
  | .takes room, seat, hub => relink (Link.setRoom · room) seat hub
  | .steps notice m, seat, hub => step notice m seat hub
  | .drops, seat, hub => drop seat hub

/-- The task of a connection is aborted, if its client is one of some. -/
def doom (clients : List ClientId) (seat : Seat) : Seat :=
  { seat with doomed := seat.doomed || clients.contains seat.client }

end Seat

namespace House

/-- Lets something happen to a connection. -/
def deal (house : House) (i : Nat) (d : Dealing) : House :=
  match house.seats[i]? with
  | none => house
  | some seat =>
    let (seat, hub) := seat.deal d house.hub
    { hub, seats := house.seats.set i seat }

/-- What happens. -/
def happen (house : House) : Affair → House
  | .registers peer tick limits =>
    match house.hub.register peer tick with
    | (none, _) => house
    | (some client, hub) =>
      let link : Link := { connection := { client, limits } }
      { hub, seats := house.seats ++ [{ link, peer, heard := tick }] }
  | .deals i d => house.deal i d
  | .dooms clients => { house with seats := house.seats.map (Seat.doom clients) }
  | .keeps u => { house with hub := { house.hub with store := house.hub.store.keep u } }

/-- What happens one after the other. -/
def follow (house : House) (affairs : List Affair) : House := affairs.foldl happen house

end House

/-! ## What is dealt out -/

/-- What may be done with a seat and the hub: its entry in the table is
changed along with it, or it ends and its entry goes. -/
inductive Seat.Dealt (seat : Seat) (hub : Hub) : Seat → Hub → Prop
  | changes {seat' : Seat} {hub' : Hub} (change : Client → Client) : seat'.client = seat.client →
      seat'.entry = change seat.entry → seat'.isSeated = seat.isSeated →
      hub'.clients = hub.clients.update seat.client change →
      hub'.store.counters.counted = hub.store.counters.counted → Dealt seat hub seat' hub'
  | leaves {seat' : Seat} {hub' : Hub} : seat'.client = seat.client →
      seat.isSeated = true → seat'.isSeated = false →
      hub'.clients = hub.clients.remove seat.client →
      hub'.store.counters.counted = (hub'.clients.size, hub.store.counters.counted.2) →
      Dealt seat hub seat' hub'

@[simp] theorem Clients.update_id (t : Clients) (id : ClientId) : (t.update id fun c => c) = t := by
  simp [update]

/-- A client that is removed need not be heard from before. -/
theorem Clients.remove_touch (t : Clients) (id : ClientId) (tick : Nat) :
    (t.touch id tick).remove id = t.remove id := by
  have hid (c : Client) :
      (if c.id = id then { c with lastSeen := tick } else c : Client).id = c.id := by
    split <;> rfl
  simp only [touch, update, remove, List.filter_map, Function.comp_def, hid]
  congr 1
  refine (List.map_congr_left fun c hc => ?_).trans (List.map_id _)
  have hne : c.id ≠ id := by simpa using (List.mem_filter.1 hc).2
  exact if_neg hne

theorem Clients.contains_touch (t : Clients) (id id' : ClientId) (tick : Nat) :
    (t.touch id tick).contains id' = t.contains id' := by
  simp only [touch, update, contains, List.any_map]
  congr 1
  funext c
  simp only [Function.comp_apply]
  split <;> rfl

/-- How a stream goes on, and how much it takes, is no concern of the
connection. -/
theorem Link.setInput_same (l : Link) (input : Input) :
    (l.setInput input).connection = l.connection ∧ (l.setInput input).state = l.state := by
  unfold setInput
  split <;> exact ⟨rfl, rfl⟩

theorem Link.setRoom_same (l : Link) (room : Room) :
    (l.setRoom room).connection = l.connection ∧ (l.setRoom room).state = l.state := by
  unfold setRoom
  split <;> exact ⟨rfl, rfl⟩

/-- **What registering does**: it is refused when the table is full, and else
it takes the next number. -/
theorem Hub.register_cases (h : Hub) (peer : String) (tick : Nat) :
    (h.clients.capacity ≤ h.clients.size ∧ h.register peer tick = (none, h)) ∨
      (h.clients.size < h.clients.capacity ∧ ∃ hub,
        h.register peer tick = (some h.clients.nextId, hub) ∧
        hub.clients = { h.clients with
          entries := h.clients.entries ++ [{ id := h.clients.nextId, peer, lastSeen := tick }]
          nextId := h.clients.nextId + 1 } ∧
        hub.store.counters.counted =
          (hub.clients.size, h.store.counters.counted.2 + 1)) := by
  by_cases hfull : h.clients.capacity ≤ h.clients.size
  · exact .inl ⟨hfull, by simp only [register, Clients.register, if_pos hfull]⟩
  · let clients : Clients := { h.clients with
      entries := h.clients.entries ++ [{ id := h.clients.nextId, peer, lastSeen := tick }]
      nextId := h.clients.nextId + 1 }
    refine .inr ⟨Nat.lt_of_not_le hfull, { h with clients }.countClients 1, ?_, rfl, rfl⟩
    simp only [register, Clients.register, if_neg hfull]
    rfl

theorem Hub.counted_unregister {h : Hub} {id : ClientId} (hin : h.clients.contains id = true) :
    (h.unregister id).clients = h.clients.remove id ∧
      (h.unregister id).store.counters.counted =
        ((h.unregister id).clients.size, h.store.counters.counted.2) := by
  simp only [unregister, hin, if_true]
  exact ⟨rfl, rfl⟩

namespace Seat

variable {seat : Seat} {hub : Hub}

theorem Dealt.refl : seat.Dealt hub seat hub :=
  .changes (fun c => c) rfl rfl rfl (Clients.update_id _ _).symm rfl

theorem dealt_relink {change : Link → Link}
    (h : ∀ l : Link, (change l).connection = l.connection ∧ (change l).state = l.state) :
    seat.Dealt hub (relink change seat hub).1 (relink change seat hub).2 := by
  obtain ⟨hconnection, hstate⟩ := h seat.link
  have hclient : (relink change seat hub).1.client = seat.client :=
    congrArg Connection.client hconnection
  refine .changes (fun c => c) hclient ?_ ?_ (Clients.update_id _ _).symm rfl
  · simp only [entry, hclient]
    rfl
  · simp only [relink, isSeated, Link.isRunning, hstate]

theorem dealt_drop (hin : seat.link.isRunning = true → hub.clients.contains seat.client = true) :
    seat.Dealt hub (drop seat hub).1 (drop seat hub).2 := by
  simp only [drop, Link.abortServed]
  split
  · split
    · next hrun =>
      have hseated : seat.isSeated = true := isSeated_of_running hrun
      cases hbegun : seat.begun with
      | true =>
        obtain ⟨hclients, hcounted⟩ := Hub.counted_unregister (hin hrun)
        exact .leaves rfl hseated rfl hclients hcounted
      | false =>
        -- the task has not begun, so the seat stays taken
        exact .changes (fun c => c) rfl rfl hseated.symm (Clients.update_id _ _).symm rfl
    · exact .refl
  · exact .refl

theorem dealt_step (hin : seat.link.isRunning = true → hub.clients.contains seat.client = true)
    (notice : Notice) (m : Moment) :
    seat.Dealt hub (step notice m seat hub).1 (step notice m seat hub).2 := by
  unfold step
  split
  · next hgoing =>
    have hrunning := hgoing.1
    have hrun := Link.isRunning_iff.1 hrunning
    have hclient := Link.client_step seat.link hub notice m
    have hcounted : (seat.link.step hub notice m).2.store.counters.counted =
        hub.store.counters.counted := by
      rw [(seat.link.step_store hub notice m).1]
      exact Store.counted_answerAny _ _ _ _
    obtain ⟨hhears, hsilent⟩ := Link.heard_step hrun hub notice m
    generalize seat.link.step hub notice m = after at *
    obtain ⟨link, hub'⟩ := after
    simp only at hclient hcounted hhears hsilent ⊢
    have hseated : seat.isSeated = true := isSeated_of_running hrunning
    by_cases hgoes : link.isRunning = true
    · rw [if_pos hgoes]
      by_cases hh : Link.Hears seat.link.connection seat.link.wire link.wire
      · refine .changes (fun c => { c with lastSeen := m.tick }) hclient ?_
          ((isSeated_of_running hgoes).trans hseated.symm) (hhears hh) hcounted
        simp only [entry, client, hclient, if_pos hh]
      · refine .changes (fun c => c) hclient ?_
          ((isSeated_of_running hgoes).trans hseated.symm)
          ((hsilent hh).trans (Clients.update_id _ _).symm) hcounted
        simp only [entry, client, hclient, if_neg hh]
    · rw [if_neg hgoes]
      -- the last that is heard from a client does not matter any more
      have hsame : hub'.clients.contains seat.client = true ∧
          hub'.clients.remove seat.client = hub.clients.remove seat.client := by
        by_cases hh : Link.Hears seat.link.connection seat.link.wire link.wire
        · rw [hhears hh, Clients.contains_touch]
          exact ⟨hin hrunning, Clients.remove_touch _ _ _⟩
        · rw [hsilent hh]
          exact ⟨hin hrunning, rfl⟩
      obtain ⟨hclients, hcount⟩ := Hub.counted_unregister hsame.1
      rw [hcounted] at hcount
      refine .leaves hclient hseated ?_ (hclients.trans hsame.2) hcount
      rw [isSeated, Bool.eq_false_iff.2 hgoes]
      rfl
  · exact .refl

/-- **Whatever happens to a connection**, its entry goes along with it. -/
theorem dealt_deal (hin : seat.link.isRunning = true → hub.clients.contains seat.client = true)
    (d : Dealing) : seat.Dealt hub (seat.deal d hub).1 (seat.deal d hub).2 := by
  cases d with
  | attaches => exact .changes (fun c => { c with served := true }) rfl rfl rfl rfl rfl
  | arrives piece => exact dealt_relink fun _ => ⟨rfl, rfl⟩
  | hears input => exact dealt_relink fun l => l.setInput_same input
  | takes room => exact dealt_relink fun l => l.setRoom_same room
  | steps notice m => exact dealt_step hin notice m
  | drops => exact dealt_drop hin

/-! ## One entry among others -/

variable {seats before after : List Seat} {id : ClientId}

/-- Nothing happens to the entries of other clients. -/
theorem map_entries (hout : id ∉ seats.map client) (change : Client → Client) :
    (entries seats).map (fun c => if c.id = id then change c else c) = entries seats := by
  refine (List.map_congr_left fun c hc => ?_).trans (List.map_id _)
  refine if_neg fun heq => hout ?_
  rw [← heq]
  exact mem_of_mem_entries hc

theorem filter_entries (hout : id ∉ seats.map client) :
    (entries seats).filter (fun c => c.id != id) = entries seats := by
  refine List.filter_eq_self.2 fun c hc => ?_
  have hne : c.id ≠ id := fun heq => hout (heq ▸ mem_of_mem_entries hc)
  simpa using hne

/-- A task that is aborted stays in the table until it is dropped. -/
theorem entries_doom (clients : List ClientId) (seats : List Seat) :
    entries (seats.map (doom clients)) = entries seats := by
  rw [entries, List.filter_map, List.map_map]
  rfl

/-- The entries of a seat and of others are changed one by one. -/
theorem entries_change {seat seat' : Seat} {change : Client → Client}
    (hbefore : seat.client ∉ before.map client) (hafter : seat.client ∉ after.map client)
    (hentry : seat'.entry = change seat.entry)
    (hsame : seat'.isSeated = seat.isSeated) :
    (entries (before ++ seat :: after)).map
        (fun c => if c.id = seat.client then change c else c) =
      entries (before ++ seat' :: after) := by
  rw [entries_append, entries_append, List.map_append, map_entries hbefore]
  cases hseated : seat.isSeated with
  | true =>
    rw [entries_cons_of_seated hseated, entries_cons_of_seated (hsame.trans hseated),
      List.map_cons, map_entries hafter, hentry]
    exact congrArg (fun c => entries before ++ c :: entries after) (if_pos rfl)
  | false =>
    rw [entries_cons_of_left hseated, entries_cons_of_left (hsame.trans hseated),
      map_entries hafter]

/-- The entry of a seat that is left is gone. -/
theorem entries_leave {seat seat' : Seat}
    (hbefore : seat.client ∉ before.map client) (hafter : seat.client ∉ after.map client)
    (hseated : seat.isSeated = true) (hleft : seat'.isSeated = false) :
    (entries (before ++ seat :: after)).filter (fun c => c.id != seat.client) =
      entries (before ++ seat' :: after) := by
  rw [entries_append, entries_append, List.filter_append, filter_entries hbefore,
    entries_cons_of_seated hseated, entries_cons_of_left hleft,
    List.filter_cons_of_neg (by simp [entry]), filter_entries hafter]

end Seat

/-! ## The table tells who is seated -/

namespace House

/-- The table and the counters are what the seats make them. Clients are
numbered from one, in the order in which they were admitted. -/
structure Sound (most : Nat) (house : House) : Prop where
  entries : house.hub.clients.entries = Seat.entries house.seats
  numbered : house.seats.map Seat.client = List.range' 1 house.seats.length
  next : house.hub.clients.nextId = house.seats.length + 1
  capacity : house.hub.clients.capacity = most
  room : house.hub.clients.size ≤ most
  counted : house.hub.store.counters.counted = (house.hub.clients.size, house.seats.length)

variable {house : House} {most : Nat}

theorem sound_start (settings : Settings) (wall : Int) :
    Sound settings.maxClients { hub := Hub.ofSettings settings wall } :=
  ⟨rfl, rfl, rfl, rfl, Nat.zero_le _, rfl⟩

namespace Sound

theorem nodup (h : house.Sound most) : (house.seats.map Seat.client).Nodup := by
  rw [h.numbered]
  exact List.nodup_range'

/-- The client of a seat that is taken is in the table. -/
theorem contains (h : house.Sound most) {seat : Seat} (hseat : seat ∈ house.seats)
    (hseated : seat.isSeated = true) : house.hub.clients.contains seat.client = true := by
  rw [Clients.contains, h.entries, List.any_eq_true]
  exact ⟨seat.entry, List.mem_map_of_mem (List.mem_filter.2 ⟨hseat, hseated⟩), by simp [Seat.entry]⟩

/-- **What is dealt out keeps the table right.** -/
theorem dealt (h : house.Sound most) {before after : List Seat} {seat seat' : Seat} {hub' : Hub}
    (hseats : house.seats = before ++ seat :: after) (hdealt : seat.Dealt house.hub seat' hub') :
    Sound most { hub := hub', seats := before ++ seat' :: after } := by
  have hnodup := h.nodup
  rw [hseats, List.map_append, List.map_cons, List.nodup_middle, List.nodup_cons,
    List.mem_append, not_or] at hnodup
  obtain ⟨⟨hbefore, hafter⟩, -⟩ := hnodup
  have hlength : (before ++ seat' :: after).length = house.seats.length := by simp [hseats]
  have hentries := h.entries
  have hnumbered (hclient : seat'.client = seat.client) :
      (before ++ seat' :: after).map Seat.client =
        List.range' 1 (before ++ seat' :: after).length := by
    rw [hlength, ← h.numbered, hseats, List.map_append, List.map_append, List.map_cons,
      List.map_cons, hclient]
  rw [hseats] at hentries
  cases hdealt with
  | changes change hclient hentry hsame hclients hcounted =>
    have hsize : hub'.clients.size = house.hub.clients.size := by
      rw [hclients, Clients.size, Clients.update, List.length_map, Clients.size]
    refine ⟨?_, hnumbered hclient, ?_, ?_, ?_, ?_⟩
    · rw [hclients, Clients.update, hentries]
      exact Seat.entries_change hbefore hafter hentry hsame
    · rw [hclients, hlength]
      exact h.next
    · rw [hclients]
      exact h.capacity
    · rw [hsize]
      exact h.room
    · rw [hcounted, hsize, hlength]
      exact h.counted
  | leaves hclient hseated hleft hclients hcounted =>
    have hsize : hub'.clients.size ≤ house.hub.clients.size := by
      rw [hclients]
      exact List.length_filter_le _ _
    refine ⟨?_, hnumbered hclient, ?_, ?_, Nat.le_trans hsize h.room, ?_⟩
    · rw [hclients, Clients.remove, hentries]
      exact Seat.entries_leave hbefore hafter hseated hleft
    · rw [hclients, hlength]
      exact h.next
    · rw [hclients]
      exact h.capacity
    · rw [hcounted, h.counted, hlength]

theorem deal (h : house.Sound most) (i : Nat) (d : Dealing) : (house.deal i d).Sound most := by
  unfold House.deal
  cases hi : house.seats[i]? with
  | none => exact h
  | some seat =>
    obtain ⟨hlt, rfl⟩ := List.getElem?_eq_some_iff.1 hi
    have hseats : house.seats =
        house.seats.take i ++ house.seats[i] :: house.seats.drop (i + 1) := by
      rw [List.getElem_cons_drop, List.take_append_drop]
    have hdealt := Seat.dealt_deal
      (fun hrun => h.contains (List.getElem_mem hlt) (Seat.isSeated_of_running hrun)) d
    simp only [List.set_eq_take_append_cons_drop, if_pos hlt]
    exact h.dealt hseats hdealt

theorem registers (h : house.Sound most) (peer : String) (tick : Nat) (limits : ConnectionLimits) :
    (house.happen (.registers peer tick limits)).Sound most := by
  rcases house.hub.register_cases peer tick with ⟨-, heq⟩ | ⟨hroom, hub, heq, hclients, hcounted⟩
  · simp only [House.happen, heq]
    exact h
  · have hsize : hub.clients.size = house.hub.clients.size + 1 := by
      rw [hclients, Clients.size, List.length_append]
      rfl
    simp only [House.happen, heq]
    refine ⟨?_, ?_, ?_, ?_, ?_, ?_⟩
    · rw [hclients, Seat.entries_append, ← h.entries]
      rfl
    · rw [List.map_append, h.numbered, List.length_append, List.length_singleton,
        List.range'_1_concat, Nat.add_comm 1, ← h.next]
      rfl
    · rw [hclients, List.length_append]
      exact congrArg (· + 1) h.next
    · rw [hclients]
      exact h.capacity
    · rw [hsize, ← h.capacity]
      exact hroom
    · rw [hcounted, h.counted, hsize, List.length_append]
      rfl

/-- **Nothing that happens makes the table wrong.** -/
theorem happen (h : house.Sound most) (affair : Affair) : (house.happen affair).Sound most := by
  cases affair with
  | registers peer tick limits => exact h.registers peer tick limits
  | deals i d => exact h.deal i d
  | dooms clients =>
    have hlength : (house.seats.map (Seat.doom clients)).length = house.seats.length :=
      List.length_map _
    refine ⟨?_, ?_, ?_, h.capacity, h.room, ?_⟩
    · simp only [House.happen, Seat.entries_doom, h.entries]
    · simp only [House.happen, List.map_map, hlength, ← h.numbered]
      rfl
    · simp only [House.happen, hlength, h.next]
    · simp only [House.happen, hlength, h.counted]
  | keeps u =>
    refine ⟨h.entries, h.numbered, h.next, h.capacity, h.room, ?_⟩
    exact (Store.counted_keep _ u).trans h.counted

theorem follow (h : house.Sound most) (affairs : List Affair) :
    (house.follow affairs).Sound most := by
  induction affairs generalizing house with
  | nil => exact h
  | cons affair affairs ih => exact ih (h.happen affair)

end Sound

end House

/-! ## Tasks that never begin -/

namespace Seat

variable {seat : Seat} {hub : Hub}

/-- What happens to a connection leaves it going or not, and its task begun or
not; or the task has a turn, which only a connection that goes on can have;
or a task that was aborted is dropped. -/
inductive Turned (seat seat' : Seat) : Prop
  | stays : seat'.link.isRunning = seat.link.isRunning → seat'.begun = seat.begun →
      Turned seat seat'
  | begins : seat.link.isRunning = true → seat'.begun = true → Turned seat seat'
  | dropped : seat.doomed = true → seat'.link.isRunning = false → seat'.begun = seat.begun →
      Turned seat seat'

theorem deal_turned (seat : Seat) (d : Dealing) (hub : Hub) :
    seat.Turned (seat.deal d hub).1 := by
  have hsame {l : Link} (hstate : l.state = seat.link.state) :
      l.isRunning = seat.link.isRunning := by
    rw [Link.isRunning, Link.isRunning, hstate]
  cases d with
  | attaches => exact .stays rfl rfl
  | arrives piece => exact .stays rfl rfl
  | hears input => exact .stays (hsame (seat.link.setInput_same input).2) rfl
  | takes room => exact .stays (hsame (seat.link.setRoom_same room).2) rfl
  | steps notice m =>
    simp only [deal, step]
    split
    · next hgoing => exact .begins hgoing.1 rfl
    · exact .stays rfl rfl
  | drops =>
    simp only [deal, drop, Link.abortServed]
    split
    · next hdoomed =>
      split
      · exact .dropped hdoomed rfl rfl
      · exact .stays rfl rfl
    · exact .stays rfl rfl

/-- What is known of a seat for good: whose it is, whether its task was
aborted, and that the table knows the task. -/
theorem deal_keeps (seat : Seat) (d : Dealing) (hub : Hub) :
    (seat.deal d hub).1.client = seat.client ∧ (seat.deal d hub).1.doomed = seat.doomed ∧
      (seat.attached = true → (seat.deal d hub).1.attached = true) := by
  cases d with
  | attaches => exact ⟨rfl, rfl, fun _ => rfl⟩
  | arrives piece => exact ⟨rfl, rfl, id⟩
  | hears input =>
    exact ⟨congrArg Connection.client (seat.link.setInput_same input).1, rfl, id⟩
  | takes room => exact ⟨congrArg Connection.client (seat.link.setRoom_same room).1, rfl, id⟩
  | steps notice m =>
    simp only [deal, step]
    split
    · exact ⟨seat.link.client_step hub notice m, rfl, id⟩
    · exact ⟨rfl, rfl, id⟩
  | drops =>
    simp only [deal, drop, Link.abortServed]
    split
    · split <;> exact ⟨rfl, rfl, id⟩
    · exact ⟨rfl, rfl, id⟩

/-- Nothing sets a connection going again. -/
theorem isRunning_of_deal (seat : Seat) (d : Dealing) (hub : Hub)
    (hrun : (seat.deal d hub).1.link.isRunning = true) : seat.link.isRunning = true := by
  cases seat.deal_turned d hub with
  | stays hsame => exact hsame ▸ hrun
  | begins hran => exact hran
  | dropped _ hended =>
    rw [hended] at hrun
    cases hrun

/-- Nothing serves a connection whose task was dropped. -/
theorem IsUnserved.deal (h : seat.IsUnserved) (d : Dealing) (hub : Hub) :
    (seat.deal d hub).1.IsUnserved := by
  obtain ⟨hended, hbegun⟩ := h
  cases seat.deal_turned d hub with
  | stays hsame hstays => exact ⟨hsame.trans hended, hstays.trans hbegun⟩
  | begins hran =>
    rw [hended] at hran
    cases hran
  | dropped _ hdropped hstays => exact ⟨hdropped, hstays.trans hbegun⟩

end Seat

namespace House

variable {house : House} {i : Nat} {seat : Seat}

/-- What holds of every seat, and of every seat that something happens to,
holds of every seat then. -/
theorem forall_deal {P : Seat → Prop} (h : ∀ seat ∈ house.seats, P seat) (i : Nat) (d : Dealing)
    (hdeal : ∀ seat, P seat → P (seat.deal d house.hub).1) :
    ∀ seat ∈ (house.deal i d).seats, P seat := by
  unfold deal
  cases hi : house.seats[i]? with
  | none => exact h
  | some seat =>
    intro seat' hseat'
    rcases List.mem_or_eq_of_mem_set hseat' with hold | rfl
    · exact h seat' hold
    · exact hdeal seat (h seat (List.mem_of_getElem? hi))

/-- A seat that was not served stays where it is. -/
theorem unserved_happen (hi : house.seats[i]? = some seat) (h : seat.IsUnserved)
    (affair : Affair) : ∃ seat', (house.happen affair).seats[i]? = some seat' ∧
      seat'.IsUnserved ∧ seat'.client = seat.client := by
  cases affair with
  | registers peer tick limits =>
    refine ⟨seat, ?_, h, rfl⟩
    simp only [happen]
    split
    · exact hi
    · rw [List.getElem?_append_left (List.getElem?_eq_some_iff.1 hi).1]
      exact hi
  | deals j d =>
    simp only [happen, deal]
    cases hj : house.seats[j]? with
    | none => exact ⟨seat, hi, h, rfl⟩
    | some other =>
      by_cases hij : j = i
      · subst hij
        rw [hi] at hj
        cases hj
        have hset := List.getElem?_set_self (a := (seat.deal d house.hub).1)
          (List.getElem?_eq_some_iff.1 hi).1
        exact ⟨_, hset, h.deal d house.hub, (seat.deal_keeps d house.hub).1⟩
      · exact ⟨seat, (List.getElem?_set_ne hij).trans hi, h, rfl⟩
  | dooms clients =>
    refine ⟨seat.doom clients, ?_, h, rfl⟩
    rw [happen, List.getElem?_map, hi]
    rfl
  | keeps u => exact ⟨seat, hi, h, rfl⟩

end House

/-- **A seat that was not served is never free again.** Once a task was
dropped before its first turn, its client stays in the table, whatever
happens. -/
theorem unserved_seat_is_never_free {most : Nat} {house : House} (h : house.Sound most) {i : Nat}
    {seat : Seat} (hi : house.seats[i]? = some seat) (hunserved : seat.IsUnserved)
    (affairs : List Affair) :
    (house.follow affairs).hub.clients.contains seat.client = true := by
  induction affairs generalizing house seat with
  | nil => exact h.contains (List.mem_of_getElem? hi) hunserved.isSeated
  | cons affair affairs ih =>
    obtain ⟨seat', hi', hunserved', hclient⟩ := House.unserved_happen hi hunserved affair
    rw [← hclient]
    exact ih (h.happen affair) hi' hunserved'

/-- A client is aborted before its task has had a turn. It says nothing any
more, and the only seat stays taken. -/
example :
    let house := ({ hub := Hub.ofSettings { maxClients := 1 } 100 } : House).follow
      [.registers "a" 0 {}, .deals 0 .attaches, .dooms [1], .deals 0 .drops]
    house.seats.map (fun seat => seat.link.isRunning) = [false] ∧
      (house.hub.register "b" 1).1 = none := by
  decide

end PrefixCache

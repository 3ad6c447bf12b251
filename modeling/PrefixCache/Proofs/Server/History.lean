import PrefixCache.Proofs.Connection.Balance
/-!
# One history for all clients

A crowd is a hub with the links of any number of clients. Its links take
steps in any order, between which bytes arrive and leave, clients come and
go, the clock is set and sweeps are made. Each of these occurrences changes
the store by at most one entry, so what the store has gone through is a
list of entries (`Crowd.history`), and replaying that list gives the store
(`Crowd.Tells.store`). The exchanges of a link are read off the same list.
Its books balance against them, so no reply gets lost, doubled or crossed.
-/

namespace PrefixCache

/-! ## Upkeep -/

/-- What the chores of a server do to a store. -/
inductive Upkeep where
  /-- The clock is set, in a cron run. -/
  | cron (wall : Int)
  /-- Lapsed items are destroyed. -/
  | expire
  /-- Memory is measured, and stale items are evicted. -/
  | evict (available resident : Nat)
  /-- Every item is destroyed. -/
  | clear
  deriving Repr, DecidableEq

namespace Store

/-- Does some upkeep. -/
def keep (s : Store) : Upkeep → Store
  | .cron wall =>
    let s := s.setClock wall
    { s with counters := { s.counters with cronRuns := s.counters.cronRuns + 1 } }
  | .expire => s.expireSweep.2
  | .evict available resident =>
    ({ s with counters := { s.counters with available, resident } } : Store).memorySweep.2
  | .clear => s.destroyAll.2

/-- Notes how many clients there are, and how many more connections there
have been. -/
def countClients (s : Store) (clients more : Nat) : Store :=
  { s with counters := { s.counters with
      clients
      connections := s.counters.connections + more } }

end Store

/-! ## Entries -/

/-- What changes a store. -/
inductive Entry where
  /-- The link with a number answers a request at a time. -/
  | answers (i : Nat) (wall : Int) (r : Request)
  | keeps (u : Upkeep)
  | counts (clients more : Nat)
  deriving Repr, DecidableEq

/-- The upkeep an entry is about. -/
def Entry.upkeep? : Entry → Option Upkeep
  | keeps u => some u
  | _ => none

namespace Store

variable (fields : FieldLimits)

/-- Replays an entry. -/
def enter (s : Store) : Entry → Store
  | .answers _ wall r => (s.answer fields wall r).2
  | .keeps u => s.keep u
  | .counts clients more => s.countClients clients more

/-- Replays entries one after the other. -/
def replay (s : Store) (entries : List Entry) : Store := entries.foldl (enter fields) s

/-- The exchange that a link has at an entry. -/
def exchange (i : Nat) (s : Store) : Entry → List Exchange
  | .answers j wall r => if j = i then s.exchanged fields wall (some r) else []
  | _ => []

/-- The exchanges that a link has while entries are replayed. -/
def exchanges (i : Nat) : Store → List Entry → List Exchange
  | _, [] => []
  | s, e :: entries => s.exchange fields i e ++ exchanges i (s.enter fields e) entries

variable {fields}

theorem replay_append (s : Store) (past more : List Entry) :
    s.replay fields (past ++ more) = (s.replay fields past).replay fields more :=
  List.foldl_append

theorem exchanges_append (i : Nat) (s : Store) (past more : List Entry) :
    s.exchanges fields i (past ++ more) =
      s.exchanges fields i past ++ (s.replay fields past).exchanges fields i more := by
  induction past generalizing s with
  | nil => rfl
  | cons e past ih =>
    simp only [List.cons_append, exchanges, ih, List.append_assoc]
    rfl

end Store

/-! ## Crowds -/

/-- A hub with the links of its clients. -/
structure Crowd where
  hub : Hub
  links : List Link := []

/-- What can happen in a crowd. Links go by their number. -/
inductive Occurrence where
  /-- A client comes, if the table is not full. -/
  | joins (peer : String) (tick : Nat) (limits : ConnectionLimits)
  /-- A piece of a stream arrives. -/
  | arrives (i : Nat) (piece : Bytes)
  /-- A stream goes on, ends or breaks. -/
  | hears (i : Nat) (input : Input)
  /-- A stream takes so many bytes. -/
  | takes (i : Nat) (room : Room)
  /-- A link takes a step. -/
  | steps (i : Nat) (notice : Notice) (m : Moment)
  /-- A link is aborted. -/
  | aborts (i : Nat)
  /-- The client of a link that has ended is taken out of the table. -/
  | leaves (i : Nat)
  | keeps (u : Upkeep)
  deriving Repr, DecidableEq

/-- The upkeep an occurrence is about. -/
def Occurrence.upkeep? : Occurrence → Option Upkeep
  | keeps u => some u
  | _ => none

namespace Crowd

/-- What happens. -/
def happen (crowd : Crowd) : Occurrence → Crowd
  | .joins peer tick limits =>
    match crowd.hub.register peer tick with
    | (none, _) => crowd
    | (some client, hub) =>
      { hub := hub.attach client
        links := crowd.links ++ [{ connection := { client, limits } }] }
  | .arrives i piece => { crowd with links := crowd.links.modify i (Link.deliver · piece) }
  | .hears i input => { crowd with links := crowd.links.modify i (Link.setInput · input) }
  | .takes i room => { crowd with links := crowd.links.modify i (Link.setRoom · room) }
  | .steps i notice m =>
    match crowd.links[i]? with
    | none => crowd
    | some l =>
      let (l, hub) := l.step crowd.hub notice m
      { hub, links := crowd.links.set i l }
  | .aborts i => { crowd with links := crowd.links.modify i Link.abort }
  | .leaves i =>
    match crowd.links[i]? with
    | none => crowd
    | some l =>
      if l.isRunning then crowd
      else { crowd with hub := crowd.hub.unregister l.connection.client }
  | .keeps u => { crowd with hub := { crowd.hub with store := crowd.hub.store.keep u } }

/-- The entry an occurrence makes. -/
def entryOf (crowd : Crowd) : Occurrence → Option Entry
  | .joins peer tick _ =>
    match crowd.hub.register peer tick with
    | (none, _) => none
    | (some _, hub) => some (.counts hub.clients.size 1)
  | .steps i _ m => (crowd.links[i]?.bind Link.asked?).map (.answers i m.wall)
  | .leaves i =>
    match crowd.links[i]? with
    | none => none
    | some l =>
      if l.isRunning ∨ ¬ crowd.hub.clients.contains l.connection.client then none
      else some (.counts (crowd.hub.clients.remove l.connection.client).size 0)
  | .keeps u => some (.keeps u)
  | _ => none

/-- What an occurrence delivers to a link. -/
def delivery (crowd : Crowd) (i : Nat) : Occurrence → Bytes
  | .arrives j piece => if j = i ∧ i < crowd.links.length then piece else []
  | _ => []

/-- What happens one after the other. -/
def follow (crowd : Crowd) (occurrences : List Occurrence) : Crowd :=
  occurrences.foldl happen crowd

/-- The entries that occurrences make. -/
def history : Crowd → List Occurrence → List Entry
  | _, [] => []
  | crowd, o :: occurrences =>
    (crowd.entryOf o).toList ++ history (crowd.happen o) occurrences

/-- What occurrences deliver to a link. -/
def delivered (i : Nat) : Crowd → List Occurrence → Bytes
  | _, [] => []
  | crowd, o :: occurrences => crowd.delivery i o ++ delivered i (crowd.happen o) occurrences

/-! ## The store of a crowd -/

/-- **What happens changes the store by its entry.** -/
theorem store_happen (crowd : Crowd) (o : Occurrence) :
    (crowd.happen o).hub.store =
      crowd.hub.store.replay crowd.hub.fields (crowd.entryOf o).toList := by
  cases o with
  | joins peer tick limits =>
    simp only [happen, entryOf, Hub.register]
    cases crowd.hub.clients.register peer tick with
    | mk client clients => cases client <;> rfl
  | steps i notice m =>
    simp only [happen, entryOf]
    cases crowd.links[i]? with
    | none => rfl
    | some l =>
      simp only [Option.bind_some]
      rw [(l.step_store crowd.hub notice m).1]
      cases l.asked? <;> rfl
  | leaves i =>
    simp only [happen, entryOf]
    cases crowd.links[i]? with
    | none => rfl
    | some l =>
      simp only [Hub.unregister]
      by_cases hrun : l.isRunning
      · simp only [hrun, if_true, true_or]
        rfl
      · by_cases hthere : crowd.hub.clients.contains l.connection.client
        · simp only [hrun, hthere, if_true, not_true_eq_false, or_false]
          rfl
        · simp only [hrun, hthere]
          rfl
  | keeps u => rfl
  | _ => rfl

/-- Nothing that happens changes the limits of fields. -/
theorem fields_happen (crowd : Crowd) (o : Occurrence) :
    (crowd.happen o).hub.fields = crowd.hub.fields := by
  cases o with
  | joins peer tick limits =>
    simp only [happen, Hub.register]
    cases crowd.hub.clients.register peer tick with
    | mk client clients => cases client <;> rfl
  | steps i notice m =>
    simp only [happen]
    cases crowd.links[i]? with
    | none => rfl
    | some l => exact (l.step_store crowd.hub notice m).2
  | leaves i =>
    simp only [happen]
    cases crowd.links[i]? with
    | none => rfl
    | some l =>
      simp only [Hub.unregister]
      split
      · rfl
      · split <;> rfl
  | _ => rfl

/-! ## The books of a crowd -/

/-- The history `past`, which began at the store `start`, tells how the
crowd has come about, when `streams` were delivered to its links. Links
that are still to come have done nothing yet. -/
structure Tells (crowd : Crowd) (start : Store) (past : List Entry) (streams : Nat → Bytes) :
    Prop where
  store : crowd.hub.store = start.replay crowd.hub.fields past
  seated {i : Nat} {l : Link} : crowd.links[i]? = some l →
    l.Balances (streams i) (start.exchanges crowd.hub.fields i past)
  unseated {i : Nat} : crowd.links.length ≤ i →
    streams i = [] ∧ start.exchanges crowd.hub.fields i past = []

/-- A crowd without links has no history. -/
theorem tells_start (hub : Hub) : Tells { hub } hub.store [] fun _ => [] where
  store := rfl
  seated h := by simp at h
  unseated _ := ⟨rfl, rfl⟩

/-- Only a step makes an exchange. -/
theorem exchanges_of_other {crowd : Crowd} {o : Occurrence} (h : ∀ i notice m, o ≠ .steps i notice m)
    (k : Nat) : crowd.hub.store.exchanges crowd.hub.fields k (crowd.entryOf o).toList = [] := by
  cases o with
  | joins peer tick limits =>
    simp only [entryOf]
    split <;> rfl
  | steps i notice m => exact absurd rfl (h i notice m)
  | leaves i =>
    simp only [entryOf]
    split
    · rfl
    · split <;> rfl
  | _ => rfl

/-- **A step makes an exchange for no link but its own.** -/
theorem exchanges_of_steps (crowd : Crowd) (i : Nat) (notice : Notice) (m : Moment) (k : Nat) :
    crowd.hub.store.exchanges crowd.hub.fields k (crowd.entryOf (.steps i notice m)).toList =
      if i = k then
        crowd.hub.store.exchanged crowd.hub.fields m.wall (crowd.links[i]?.bind Link.asked?)
      else [] := by
  simp only [entryOf]
  cases crowd.links[i]?.bind Link.asked? with
  | none => simp [Store.exchanges]
  | some r => simp [Store.exchanges, Store.exchange]

/-- What happens to a link keeps its books, when it is not a step. -/
theorem balances_modify {crowd : Crowd} {k : Nat} {l' : Link} {stream more : Bytes}
    {xs : List Exchange} {i : Nat} {change : Link → Link}
    (hl' : (crowd.links.modify i change)[k]? = some l')
    (hseated : ∀ {l}, crowd.links[k]? = some l → l.Balances stream xs)
    (hsame : i ≠ k → more = [])
    (hchange : ∀ {l : Link}, i = k → k < crowd.links.length → l.Balances stream xs →
      (change l).Balances (stream ++ more) xs) :
    l'.Balances (stream ++ more) xs := by
  rw [List.getElem?_modify] at hl'
  obtain ⟨l, hl, rfl⟩ := Option.map_eq_some_iff.1 hl'
  split
  · next heq => exact hchange heq (List.getElem?_eq_some_iff.1 hl).1 (hseated hl)
  · next hne =>
    rw [hsame hne, List.append_nil]
    exact hseated hl

/-- **What happens keeps the books of every link.** -/
theorem balances_happen {crowd : Crowd} {k : Nat} {stream : Bytes} {xs : List Exchange}
    (hseated : ∀ {l}, crowd.links[k]? = some l → l.Balances stream xs)
    (hunseated : crowd.links.length ≤ k → stream = [] ∧ xs = [])
    (o : Occurrence) {l' : Link} (hl' : (crowd.happen o).links[k]? = some l') :
    l'.Balances (stream ++ crowd.delivery k o)
      (xs ++ crowd.hub.store.exchanges crowd.hub.fields k (crowd.entryOf o).toList) := by
  cases o with
  | joins peer tick limits =>
    rw [exchanges_of_other (by rintro _ _ _ ⟨⟩), List.append_nil]
    simp only [delivery, List.append_nil]
    simp only [happen] at hl'
    split at hl'
    · exact hseated hl'
    · -- the link is an old one, or the one that has just come
      rw [List.getElem?_append] at hl'
      split at hl'
      · exact hseated hl'
      · next hge =>
        obtain ⟨rfl, rfl⟩ := hunseated (Nat.le_of_not_lt hge)
        rw [List.getElem?_singleton] at hl'
        split at hl'
        · cases hl'
          exact Link.Balances.start _ limits
        · cases hl'
  | arrives i piece =>
    rw [exchanges_of_other (by rintro _ _ _ ⟨⟩), List.append_nil]
    refine balances_modify hl' hseated (fun hne => if_neg fun h => hne h.1) fun heq hlt hb => ?_
    rw [delivery, if_pos ⟨heq, hlt⟩]
    exact hb.deliver piece
  | hears i input =>
    rw [exchanges_of_other (by rintro _ _ _ ⟨⟩), List.append_nil]
    refine balances_modify hl' hseated (fun _ => rfl) fun _ _ hb => ?_
    simp only [delivery, List.append_nil]
    exact hb.setInput input
  | takes i room =>
    rw [exchanges_of_other (by rintro _ _ _ ⟨⟩), List.append_nil]
    refine balances_modify hl' hseated (fun _ => rfl) fun _ _ hb => ?_
    simp only [delivery, List.append_nil]
    exact hb.setRoom room
  | steps i notice m =>
    rw [exchanges_of_steps]
    simp only [delivery, List.append_nil]
    simp only [happen] at hl'
    cases hi : crowd.links[i]? with
    | none =>
      rw [hi] at hl'
      rw [Option.bind_none, Store.exchanged_none, ite_self, List.append_nil]
      exact hseated hl'
    | some l =>
      rw [hi] at hl'
      simp only [List.getElem?_set] at hl'
      by_cases hik : i = k
      · subst hik
        rw [if_pos rfl, if_pos (List.getElem?_eq_some_iff.1 hi).1] at hl'
        cases hl'
        rw [if_pos rfl, Option.bind_some]
        exact (hseated hi).step crowd.hub notice m
      · rw [if_neg hik] at hl'
        rw [if_neg hik, List.append_nil]
        exact hseated hl'
  | aborts i =>
    rw [exchanges_of_other (by rintro _ _ _ ⟨⟩), List.append_nil]
    refine balances_modify hl' hseated (fun _ => rfl) fun _ _ hb => ?_
    simp only [delivery, List.append_nil]
    exact hb.abort
  | leaves i =>
    rw [exchanges_of_other (by rintro _ _ _ ⟨⟩), List.append_nil]
    simp only [delivery, List.append_nil]
    refine hseated ?_
    simp only [happen] at hl'
    split at hl'
    · exact hl'
    · split at hl' <;> exact hl'
  | keeps u =>
    rw [exchanges_of_other (by rintro _ _ _ ⟨⟩), List.append_nil]
    simp only [delivery, List.append_nil]
    exact hseated hl'

/-- No link is ever forgotten. -/
theorem length_le_happen (crowd : Crowd) (o : Occurrence) :
    crowd.links.length ≤ (crowd.happen o).links.length := by
  cases o with
  | joins peer tick limits =>
    simp only [happen]
    split
    · exact Nat.le_refl _
    · simp
  | steps i notice m =>
    simp only [happen]
    split
    · exact Nat.le_refl _
    · simp
  | leaves i =>
    simp only [happen]
    split
    · exact Nat.le_refl _
    · split <;> exact Nat.le_refl _
  | _ => simp [happen]

/-- Nothing is delivered to a link that is still to come, and it makes no
exchange. -/
theorem nothing_happens {crowd : Crowd} {k : Nat} (h : crowd.links.length ≤ k) (o : Occurrence) :
    crowd.delivery k o = [] ∧
      crowd.hub.store.exchanges crowd.hub.fields k (crowd.entryOf o).toList = [] := by
  cases o with
  | arrives i piece =>
    exact ⟨if_neg fun hi => absurd hi.2 (Nat.not_lt.2 h), exchanges_of_other (by nofun) k⟩
  | steps i notice m =>
    refine ⟨rfl, ?_⟩
    rw [exchanges_of_steps]
    split
    · next hik =>
      rw [hik, List.getElem?_eq_none h]
      rfl
    · rfl
  | _ => exact ⟨rfl, exchanges_of_other (by nofun) k⟩

variable {crowd : Crowd} {start : Store} {past : List Entry} {streams : Nat → Bytes}

/-- **The history tells on.** -/
theorem Tells.happen (h : crowd.Tells start past streams) (o : Occurrence) :
    (crowd.happen o).Tells start (past ++ (crowd.entryOf o).toList)
      fun i => streams i ++ crowd.delivery i o := by
  have hxs (i : Nat) : start.exchanges crowd.hub.fields i (past ++ (crowd.entryOf o).toList) =
      start.exchanges crowd.hub.fields i past ++
        crowd.hub.store.exchanges crowd.hub.fields i (crowd.entryOf o).toList := by
    rw [Store.exchanges_append, ← h.store]
  refine ⟨?_, fun {i l} hl => ?_, fun {i} hi => ?_⟩
  · rw [fields_happen, Store.replay_append, ← h.store]
    exact store_happen crowd o
  · rw [fields_happen, hxs]
    exact balances_happen h.seated h.unseated o hl
  · have hle : crowd.links.length ≤ i := Nat.le_trans (length_le_happen crowd o) hi
    obtain ⟨hstream, hpast⟩ := h.unseated hle
    obtain ⟨hdelivery, hmore⟩ := nothing_happens hle o
    rw [fields_happen, hxs, hstream, hpast, hdelivery, hmore]
    exact ⟨rfl, rfl⟩

theorem Tells.follow (h : crowd.Tells start past streams) (occurrences : List Occurrence) :
    (crowd.follow occurrences).Tells start (past ++ crowd.history occurrences)
      fun i => streams i ++ crowd.delivered i occurrences := by
  induction occurrences generalizing crowd past streams with
  | nil => simpa [history, delivered, Crowd.follow] using h
  | cons o occurrences ih =>
    have hnext := ih (h.happen o)
    simp only [List.append_assoc] at hnext
    exact hnext

theorem fields_follow (crowd : Crowd) (occurrences : List Occurrence) :
    (crowd.follow occurrences).hub.fields = crowd.hub.fields := by
  induction occurrences generalizing crowd with
  | nil => rfl
  | cons o occurrences ih => exact (ih (crowd.happen o)).trans (fields_happen crowd o)

/-- The history has the same upkeep as what happens, in the same order. -/
theorem upkeep_history (crowd : Crowd) (occurrences : List Occurrence) :
    (crowd.history occurrences).filterMap Entry.upkeep? =
      occurrences.filterMap Occurrence.upkeep? := by
  have hentry (crowd : Crowd) (o : Occurrence) :
      (crowd.entryOf o).toList.filterMap Entry.upkeep? = o.upkeep?.toList := by
    cases o with
    | joins peer tick limits =>
      simp only [entryOf]
      split <;> rfl
    | steps i notice m =>
      simp only [entryOf]
      cases crowd.links[i]?.bind Link.asked? <;> rfl
    | leaves i =>
      simp only [entryOf]
      split
      · rfl
      · split <;> rfl
    | _ => rfl
  induction occurrences generalizing crowd with
  | nil => rfl
  | cons o occurrences ih =>
    rw [history, List.filterMap_append, hentry, ih, List.filterMap_cons]
    cases o.upkeep? <;> rfl

end Crowd

/-! ## The law of histories -/

/-- **Clients are served as one history.** Whatever happens in a crowd that
begins without links, in whatever order: replaying the history gives the
store, with the upkeep that was done in its place. For every link, the
requests of the history are a beginning of what was delivered to it, and
all of that but the unused bytes while it runs. What has left is a
beginning of the replies to just these requests, and all of them when the
link awaits a length. -/
theorem clients_share_one_history (hub : Hub) (occurrences : List Occurrence) :
    let start : Crowd := { hub }
    let crowd := start.follow occurrences
    let history := start.history occurrences
    crowd.hub.store = hub.store.replay hub.fields history ∧
      history.filterMap Entry.upkeep? = occurrences.filterMap Occurrence.upkeep? ∧
      ∀ i l, crowd.links[i]? = some l →
        let stream := start.delivered i occurrences
        let exchanges := hub.store.exchanges hub.fields i history
        Exchange.asked exchanges <+: stream ∧
          (l.state = .running → stream = Exchange.asked exchanges ++ l.unused) ∧
          l.wire.written <+: Exchange.answered exchanges ∧
          (l.connection.phase = .awaitingLength →
            l.wire.written = Exchange.answered exchanges) := by
  intro start crowd history
  have htells : crowd.Tells hub.store history fun i => start.delivered i occurrences :=
    (Crowd.tells_start hub).follow occurrences
  have hfields : crowd.hub.fields = hub.fields := Crowd.fields_follow start occurrences
  refine ⟨?_, Crowd.upkeep_history start occurrences, fun i l hl => ?_⟩
  · rw [← hfields]
    exact htells.store
  · have hbalances := htells.seated hl
    rw [hfields] at hbalances
    exact ⟨hbalances.taken, fun hrun => hbalances.stream_eq hrun hub, hbalances.given,
      hbalances.complete⟩

/-- Two clients raise one counter. The request of the first begins to
arrive before that of the second does, but it is answered after it, with
upkeep in between. The second reply has left, and three bytes of the first
one. -/
theorem two_clients_raise_one_counter :
    let hub : Hub := { store := .empty {} 100, fields := {}, clients := { capacity := 4 } }
    let limits : ConnectionLimits := { maxRequest := 64, maxResponse := 64 }
    let turn (i : Nat) (wall : Int) := Occurrence.steps i .running { wall, tick := 1 }
    let occurrences : List Occurrence :=
      [.joins "a" 0 limits, .joins "b" 0 limits, .arrives 0 [3, 0, 0, 0, 5], turn 0 200,
        .takes 1 (.bytes 3), .arrives 1 [3, 0, 0, 0, 5, 0, 110], turn 0 201, turn 1 201,
        .keeps (.cron 202), turn 1 202, turn 1 203, .arrives 0 [0, 110], turn 0 204, turn 1 205,
        .keeps .expire, turn 0 206, turn 0 207, turn 0 208]
    let raise : Request := { opcode := .inc, payload := [110] }
    let history : List Entry :=
      [.counts 1 1, .counts 2 1, .keeps (.cron 202), .answers 1 203 raise, .keeps .expire,
        .answers 0 206 raise]
    let crowd := ({ hub } : Crowd).follow occurrences
    crowd.hub.store = hub.store.replay hub.fields history ∧
      ∃ l₀ l₁, crowd.links[0]? = some l₀ ∧ crowd.links[1]? = some l₁ ∧
        l₀.wire.written = (Reply.number 2).write ∧ l₁.wire.written <+: (Reply.number 1).write := by
  intro hub limits turn occurrences raise history crowd
  obtain ⟨hstore, -, hlinks⟩ := clients_share_one_history hub occurrences
  have hhistory : ({ hub } : Crowd).history occurrences = history := by decide +kernel
  have hcrowd : ({ hub } : Crowd).follow occurrences = crowd := rfl
  rw [hcrowd, hhistory] at hstore
  rw [hcrowd, hhistory] at hlinks
  have hphases : crowd.links.map (fun l => l.connection.phase) =
      [.awaitingLength, .sending false] := by decide +kernel
  have hlength : crowd.links.length = 2 := by
    rw [← List.length_map, hphases]
    rfl
  have hsome (i : Nat) (hi : i < 2) : ∃ l, crowd.links[i]? = some l :=
    ⟨_, List.getElem?_eq_getElem (hlength ▸ hi)⟩
  obtain ⟨l₀, hl₀⟩ := hsome 0 (by decide)
  obtain ⟨l₁, hl₁⟩ := hsome 1 (by decide)
  have hawaits : l₀.connection.phase = .awaitingLength := by
    have hphase := congrArg (fun phases => phases[0]?) hphases
    simpa [hl₀] using hphase
  have hfirst : hub.store.exchanges hub.fields 0 history =
      [{ request := raise, reply := .number 2 }] := by decide +kernel
  have hsecond : hub.store.exchanges hub.fields 1 history =
      [{ request := raise, reply := .number 1 }] := by decide +kernel
  obtain ⟨-, -, -, hcomplete⟩ := hlinks 0 l₀ hl₀
  obtain ⟨-, -, hgiven, -⟩ := hlinks 1 l₁ hl₁
  rw [hfirst, Exchange.answered_singleton] at hcomplete
  rw [hsecond, Exchange.answered_singleton] at hgiven
  exact ⟨hstore, l₀, l₁, hl₀, hl₁, hcomplete hawaits, hgiven⟩

end PrefixCache

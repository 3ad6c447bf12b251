import PrefixCache.Proofs.Request.Admission
import PrefixCache.Proofs.Request.Scope
/-!
# Listed keys can be used

A key that a client reads in a list can be sent back as it is. It holds a
live item, so it is admitted, and a request that consists of it is read as
a request for just that key: it answers from the item there, changes that
item, and leaves everything else (`Store.Addressable`). This holds for every
live key of a store that requests under the same limits have led to, and a
key that was listed is live afterwards (`listed_keys_can_be_used`).
-/

namespace PrefixCache

/-! ## Requests as bodies -/

theorem Command.ofBody?_body {fields : FieldLimits} {r : Request} {c : Command}
    (h : ofRequest fields r = .ok c) : ofBody? fields r.body = some c := by
  rw [ofBody?, r.ofBody_body]
  exact congrArg Except.toOption h

/-- A key that is admitted is read as itself. -/
theorem Command.withKey_of_admits {fields : FieldLimits} {key : Bytes} (h : fields.Admits key)
    (make : Bytes → Command) : withKey fields key make = .ok (make key) := by
  rw [withKey, FieldLimits.key_of_admits h]

/-! ## Requests for one live item -/

/-- An operation on a key with a live item carries its plan out there. -/
theorem KeyOperation.run_of_live {op : KeyOperation} {r : KeyReading} (h : op.onLive? = some r)
    {s : Store} {key : Bytes} {item : Item} (hlive : s.liveUnder? key = some item) :
    op.run key s = (s.onKey key r.plan.act).map r.answer := by
  cases op with
  | add delta =>
    obtain rfl := Option.some.inj h
    exact congrArg (Outcome.map Answer.sum) (Store.add_of_some hlive delta)
  | _ =>
    refine run_eq ?_ key s
    exact h

/-- The reply to what a plan has given. -/
def KeyReading.reply (r : KeyReading) : Except StoreError r.β → Reply
  | .ok b => (r.answer b).reply
  | .error e => e.reply

theorem KeyReading.reply_of_result {r : KeyReading} {o : Outcome r.β}
    {result : Except StoreError r.β} (h : o.1 = result) : ((o.map r.answer).reply Answer.reply).1 = r.reply result := by
  obtain ⟨result', s⟩ := o
  obtain rfl : result' = result := h
  cases result' <;> rfl

namespace Store

/-- The request is for the key and no other: it gets this reply and leaves
this under the key, and what was there under every other. -/
structure Serves (s : Store) (fields : FieldLimits) (r : Request) (key : Bytes) (reply : Reply)
    (left : Option Item) : Prop where
  names : ∃ c, Command.ofBody? fields r.body = some c ∧ ∀ other, c.Names other ↔ other = key
  replied : (s.execute fields r.body).1 = .ok reply
  leaves : ∀ other, (s.execute fields r.body).2.trie.find? other =
    if other = key then left else s.trie.find? other

variable {s : Store} {fields : FieldLimits} {key : Bytes} {item : Item}

/-- **A request for a live key does what its plan says**, to that item
alone. -/
theorem serves_of_live (hs : s.trie.Arranged) (hlive : s.liveUnder? key = some item)
    {r : Request} {c : Command} (hc : Command.ofRequest fields r = .ok c) {op : KeyOperation}
    (hop : c.operation? = some (.onKey key op)) (hnames : ∀ other, c.Names other ↔ other = key)
    {reading : KeyReading} (hr : op.onLive? = some reading) {result : Except StoreError reading.β}
    {change : Change} (hplan : reading.plan s.limits s.now item = (result, change)) :
    s.Serves fields r key (reading.reply result) (change.slot s.limits s.now item) := by
  have hbody := Command.ofBody?_body hc
  have hcounted : s.countRequest.liveUnder? key = some item := hlive
  have hrun : c.run s.countRequest =
      ((s.countRequest.onKey key reading.plan.act).map reading.answer).reply Answer.reply := by
    rw [Command.run_eq hop, Operation.run, KeyOperation.run_of_live hr hcounted]
  refine ⟨⟨c, hbody, hnames⟩, ?_, fun other => ?_⟩
  · have hresult := onKey_fst s.countRequest reading.plan key
    rw [hcounted] at hresult
    rw [execute_of_command hbody, hrun,
      KeyReading.reply_of_result (hresult.trans (congrArg Prod.fst hplan))]
  · rw [execute_of_command hbody]
    split
    · next heq =>
      rw [heq, hrun, Outcome.reply_snd]
      have hleft := (find?_onKey (s := s.countRequest) hs reading.plan key key).trans (if_pos rfl)
      rw [Plan.leavesUnder_of_live _ hcounted] at hleft
      exact hleft.trans (congrArg (fun planned => planned.2.slot s.limits s.now item) hplan)
    · next hne =>
      have hother : ¬ c.Names other := fun h => hne ((hnames other).1 h)
      exact Command.find?_run_of_not_names (s := s.countRequest) hs hother

/-- Requests that consist of the key read, remove, raise and unlock the item
under it, or say why they do not. -/
structure Addressable (s : Store) (fields : FieldLimits) (key : Bytes) (item : Item) : Prop where
  get : ∃ v, expose item.value = .ok v ∧
    s.Serves fields ⟨.get, key⟩ key (.value v) (some (item.touch s.now))
  del : ¬ item.Locked s.now → s.Serves fields ⟨.del, key⟩ key (.code .ok) none
  del_locked : item.Locked s.now → s.Serves fields ⟨.del, key⟩ key (.code .locked) (some item)
  inc : ∀ n, ¬ item.Locked s.now → item.value.asNumber? = some n →
    s.Serves fields ⟨.inc, key⟩ key (.number (n + 1))
      (some { item.touch s.now with value := .number (n + 1) })
  inc_other : ¬ item.Locked s.now → item.value.asNumber? = none →
    s.Serves fields ⟨.inc, key⟩ key (.code .notANumber) (some item)
  inc_locked : item.Locked s.now → s.Serves fields ⟨.inc, key⟩ key (.code .locked) (some item)
  unlock : s.Serves fields ⟨.unlock, key⟩ key (.code .ok)
    (some { item.touch s.now with lock := 0 })

/-- **A live key can be addressed.** -/
theorem Within.addressable (h : s.Within fields) (hs : s.trie.Arranged)
    (hlive : s.liveUnder? key = some item) : s.Addressable fields key item := by
  obtain ⟨hitem, -⟩ := liveUnder?_eq_some.1 hlive
  have hkey := h.keys hitem
  obtain ⟨v, hv⟩ := (h.values.of_find? hitem).legible
  have hread {change : Change} {result : Except StoreError Value}
      (hplan : Plan.read s.limits s.now item = (result, change)) :=
    serves_of_live (r := ⟨.get, key⟩) hs hlive (Command.withKey_of_admits hkey .get) rfl
      (fun _ => eq_comm) rfl hplan
  have hdelete {change : Change} {result : Except StoreError Unit}
      (hplan : Plan.delete s.limits s.now item = (result, change)) :=
    serves_of_live (r := ⟨.del, key⟩) hs hlive (Command.withKey_of_admits hkey .del) rfl
      (fun _ => eq_comm) rfl hplan
  have hadd {change : Change} {result : Except StoreError Int64}
      (hplan : Plan.add 1 s.limits s.now item = (result, change)) :=
    serves_of_live (r := ⟨.inc, key⟩) hs hlive (Command.withKey_of_admits hkey (.add · 1)) rfl
      (fun _ => eq_comm) rfl hplan
  have hunlock := serves_of_live (r := ⟨.unlock, key⟩) hs hlive
    (Command.withKey_of_admits hkey .unlock) rfl (fun _ => eq_comm) rfl rfl
  exact {
    get := ⟨v, hv, hread (Plan.read_of_expose hv)⟩
    del := fun hfree => hdelete (Plan.unlessLocked_of_free _ hfree)
    del_locked := fun hl => hdelete (Plan.guarded_unlessLocked _ _ _ _ hl)
    inc := fun n hfree hn => hadd (Plan.add_of_number hfree hn 1)
    inc_other := fun hfree hn => hadd (Plan.add_of_other hfree hn 1)
    inc_locked := fun hl => hadd (Plan.guarded_add 1 _ _ _ hl)
    unlock := hunlock }

end Store

/-! ## Lists -/

/-- What a stem lists are keys with live items. -/
theorem Store.live_of_keys {s : Store} (hs : s.trie.Arranged) {stem key : Bytes}
    {listed : List Bytes} (h : (s.keys stem).1 = .ok listed) (hkey : key ∈ listed) :
    stem <+: key ∧ ∃ item, s.liveUnder? key = some item := by
  obtain ⟨given, hgiven, rfl⟩ :=
    Outcome.map_fst_eq_ok (f := List.map Prod.fst) (o := s.onStem stem .keep).1 h
  obtain ⟨m, hm, rfl⟩ := List.mem_map.1 hkey
  obtain ⟨hstem, item, hlive, -⟩ := live_of_onStem (p := Plan.keep) hs hgiven hm
  exact ⟨hstem, item, hlive⟩

namespace Command

/-- The reply to the command lists the key: as a name, or with a value. -/
def Lists (reply : Reply) (key : Bytes) : Command → Prop
  | keys _ => ∃ ps place, reply = .pairs ps ∧ (place, .plain key) ∈ ps
  | allGet _ => ∃ ps v, reply = .pairs ps ∧ (key, v) ∈ ps
  | _ => False

variable {c : Command} {s : Store} {key : Bytes}

/-- Listing brings nothing in. -/
theorem data?_of_lists {reply : Reply} (h : c.Lists reply key) {op : Operation}
    (hop : c.operation? = some op) : op.data? = none := by
  cases c with
  | keys stem | allGet stem => obtain rfl := Option.some.inj hop; rfl
  | _ => exact h.elim

theorem now_run (hs : s.trie.Arranged) (c : Command) : (c.run s).2.now = s.now := by
  rw [run_snd]
  cases c with
  | stats | ping | finish => rfl
  | _ =>
    first
      | exact KeyOperation.now_run _ _ s
      | exact StemOperation.now_run hs _ _

/-- **A listed key is live once the list is made.** -/
theorem live_of_lists (hs : s.trie.Arranged) (h : c.Lists (c.run s).1 key) :
    ∃ item, (c.run s).2.liveUnder? key = some item := by
  cases c with
  | keys stem =>
    obtain ⟨ps, place, hreply, hmem⟩ := h
    obtain ⟨listed, hlisted, hps⟩ := Outcome.ok_of_reply (o := s.keys stem) hreply nofun
    obtain rfl := Reply.pairs.inj hps
    obtain ⟨i, hi, hpair⟩ := List.mem_mapIdx.1 hmem
    obtain rfl := Value.plain.inj (congrArg Prod.snd hpair)
    obtain ⟨hstem, item, hlive⟩ := Store.live_of_keys hs hlisted (List.getElem_mem hi)
    obtain ⟨-, hlapsed⟩ := Store.liveUnder?_eq_some.1 hlive
    refine ⟨item, Store.liveUnder?_eq_some.2 ⟨?_, (now_run hs _).symm ▸ hlapsed⟩⟩
    exact find?_run_of_looks (c := .keys stem) hs trivial hstem hlive
  | allGet stem =>
    obtain ⟨ps, v, hreply, hmem⟩ := h
    obtain ⟨pairs, hpairs, hps⟩ := Outcome.ok_of_reply (o := s.getAll stem) hreply nofun
    obtain rfl := Reply.pairs.inj hps
    obtain ⟨hstem, item, hlive, -⟩ := Store.expose_of_getAll hs hpairs hmem
    obtain ⟨-, hlapsed⟩ := Store.liveUnder?_eq_some.1 hlive
    refine ⟨item.touch s.now, Store.liveUnder?_eq_some.2 ⟨?_, (now_run hs _).symm ▸ hlapsed⟩⟩
    exact find?_run_of_reads (c := .allGet stem) hs trivial hstem hlive
  | _ => exact h.elim

end Command

/-! ## The law of keys -/

/-- **Listed keys can be used.** Let the requests to a store be read under
the same limits, sweeps and moves of the clock come in between, and the data
that is brought in survive compression. Then every key that holds an item,
lapsed or not, is admitted: it is not empty, holds no space and is not too
long. Every value is a number or shows data that is not too long. Every key
with a live item can be addressed, and a key that a reply lists holds a live
item from then on, and can be addressed. -/
theorem listed_keys_can_be_used {fields : FieldLimits} {s : Store}
    (hs : s.Served fun e => e.Under fields ∧ e.Restores) :
    (∀ key item, s.trie.find? key = some item →
      fields.Admits key ∧ item.value.Within fields.maxValue) ∧
    (∀ key item, s.trie.find? key = some item → ¬ item.Lapsed s.now →
      s.Addressable fields key item) ∧
    (∀ body c reply key, Command.ofBody? fields body = some c →
      (s.execute fields body).1 = .ok reply → c.Lists reply key →
      let after := (s.execute fields body).2
      ∃ item, after.trie.find? key = some item ∧ ¬ item.Lapsed after.now ∧
        after.Addressable fields key item) := by
  have ht : s.trie.Arranged := hs.reachable.sound.arranged
  refine ⟨fun key item hitem => ?_, fun key item hitem hlapsed => ?_, ?_⟩
  · exact ⟨hs.within.keys hitem, hs.within.values.of_find? hitem⟩
  · exact hs.within.addressable ht (Store.liveUnder?_eq_some.2 ⟨hitem, hlapsed⟩)
  · intro body c reply key hc hreply hlists after
    have hrun := Store.execute_of_command hc s
    rw [hrun] at hreply
    obtain rfl := Except.ok.inj hreply
    obtain ⟨item, hlive⟩ := Command.live_of_lists (s := s.countRequest) ht hlists
    have hafter : after.Served fun e => e.Under fields ∧ e.Restores := by
      refine hs.step (.request fields body) ⟨rfl, fun op hop => ?_⟩
      obtain ⟨c', hc', hop⟩ := Option.bind_eq_some_iff.1 hop
      obtain rfl := Option.some.inj (hc.symm.trans hc')
      intro data hdata
      rw [Command.data?_of_lists hlists hop] at hdata
      cases hdata
    have hlive' : after.liveUnder? key = some item := by
      simp only [after, hrun]
      exact hlive
    obtain ⟨hitem, hlapsed⟩ := Store.liveUnder?_eq_some.1 hlive'
    exact ⟨item, hitem, hlapsed,
      hafter.within.addressable hafter.reachable.sound.arranged hlive'⟩

/-- Limits for short keys and values. -/
def FieldLimits.short : FieldLimits := { maxKey := 2, maxValue := 40 }

/-- A store with a compressed item under `ab`, which is locked, and a number
under `a`. A key and a value that are too long were refused. -/
def Store.shortKeyed : Store :=
  (empty { compressAbove := 8 } 100).serve
    [.request .short ([1, 0, 48, 32, 97, 98, 32] ++ List.replicate 32 7),
      .request .short [5, 0, 97],
      .request .short [5, 0, 97, 98, 99],
      .request .short ([1, 0, 48, 32, 98, 32] ++ List.replicate 41 7),
      .setClock 150,
      .request .short [7, 0, 97, 98, 32, 57],
      .expireSweep]

theorem short_keys_can_be_used :
    let s := Store.shortKeyed
    let after := (s.execute .short [21, 0, 97]).2
    (s.Served fun e => e.Under .short ∧ e.Restores) ∧
      (s.trie.find? [97, 98]).any (·.value.encoding = .compressed) ∧
      (s.trie.find? [97, 98, 99]).isNone ∧ (s.trie.find? [98]).isNone ∧
      (s.execute .short [21, 0, 97]).1 = .ok (.numbered [[97], [97, 98]]) ∧
      ∃ item, after.trie.find? [97, 98] = some item ∧ ¬ item.Lapsed after.now ∧
        after.Addressable .short [97, 98] item := by
  intro s after
  have hs : s.Served fun e => e.Under .short ∧ e.Restores :=
    .serve (.empty _ 100) (by decide +kernel)
  have hreply : (s.execute .short [21, 0, 97]).1 = .ok (.numbered [[97], [97, 98]]) := by
    decide +kernel
  have hc : Command.ofBody? .short [21, 0, 97] = some (.keys [97]) := by decide +kernel
  obtain ⟨-, -, hlisted⟩ := listed_keys_can_be_used hs
  exact ⟨hs, by decide +kernel, by decide +kernel, by decide +kernel, hreply,
    hlisted _ _ _ [97, 98] hc hreply ⟨_, [49], rfl, by decide +kernel⟩⟩

end PrefixCache

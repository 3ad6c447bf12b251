import PrefixCache.Proofs.Reply.RoundTrip
import PrefixCache.Proofs.Store.Adding
import PrefixCache.Proofs.Store.Members
/-!
# What is replied

The reply to a command is read off the answer of its operation
(`Command.run_eq`), so what is known of answers is known of replies. No
answer shows a value in compressed form: what is read from the store was
exposed first. So every reply is `Proper` (`Store.proper_dispatch`), and
the replies of a connection can be told apart by their bytes alone
(`replies_read_back`).
-/

namespace PrefixCache

/-! ## Answers as replies -/

/-- An answer as a reply. What only the server asks for is not shown. -/
def Answer.reply : Answer → Reply
  | .done | .present _ | .swept _ => .code .ok
  | .value v => .value v
  | .sum n => .number n
  | .attribute n => .number (Int64.ofInt n)
  | .count n => .affected n
  | .pairs ps => .pairs ps
  | .keys ks => .numbered ks

theorem Outcome.reply_map {β γ : Type} (make : γ → Reply) (f : β → γ) (o : Outcome β) :
    (o.map f).reply make = o.reply (make ∘ f) := by
  obtain ⟨r, s⟩ := o
  cases r <;> rfl

/-- **The reply to a command is the answer of its operation.** -/
theorem Command.run_eq {c : Command} {op : Operation} (h : c.operation? = some op) (s : Store) :
    c.run s = (op.run s).reply Answer.reply := by
  cases c <;> cases h <;>
    simp only [Operation.run, KeyOperation.run, StemOperation.run, Outcome.reply_map] <;> rfl

theorem Outcome.map_fst_eq_ok {β γ : Type} {f : β → γ} {o : Outcome β} {c : γ} :
    (o.map f).1 = .ok c ↔ ∃ b, o.1 = .ok b ∧ f b = c := by
  obtain ⟨r, s⟩ := o
  cases r <;> simp [Outcome.map, Except.map]

theorem Outcome.reply_of_ok {β : Type} {make : β → Reply} {o : Outcome β} {b : β}
    (h : o.1 = .ok b) : (o.reply make).1 = make b := by
  obtain ⟨r, s⟩ := o
  obtain rfl : r = .ok b := h
  rfl

/-- A reply that is no bare status comes from a result. -/
theorem Outcome.ok_of_reply {β : Type} {make : β → Reply} {o : Outcome β} {reply : Reply}
    (h : (o.reply make).1 = reply) (hbare : ∀ status, reply ≠ .code status) :
    ∃ b, o.1 = .ok b ∧ make b = reply := by
  obtain ⟨r, s⟩ := o
  cases r with
  | ok b => exact ⟨b, rfl, h⟩
  | error e => cases e <;> exact absurd h.symm (hbare _)

/-! ## Proper replies -/

theorem StoreError.proper_reply (e : StoreError) : e.reply.Proper := by
  cases e <;> exact ⟨nofun, nofun⟩

theorem Refusal.proper_reply (e : Refusal) : e.reply.Proper := by
  cases e <;> exact ⟨nofun, nofun⟩

/-- A reply is proper if the answer is. -/
theorem Outcome.proper_reply {β : Type} {make : β → Reply} {o : Outcome β}
    (h : ∀ b, o.1 = .ok b → (make b).Proper) : (o.reply make).1.Proper := by
  obtain ⟨r, s⟩ := o
  cases r with
  | ok b => exact h b rfl
  | error e => exact e.proper_reply

theorem Reply.proper_ok : (Reply.code .ok).Proper := ⟨nofun, nofun⟩

theorem Reply.proper_number (n : Int64) : (Reply.number n).Proper := nofun

theorem Reply.proper_statistics (s : Store) : (Reply.statistics s).Proper := by
  simp [Reply.Proper, Reply.statistics, Reply.caption, Reply.figure, Reply.average, Value.encoding]

theorem Reply.proper_numbered (ks : List Bytes) : (Reply.numbered ks).Proper := by
  intro p hp
  obtain ⟨i, hi, rfl⟩ := List.mem_mapIdx.1 hp
  exact nofun

namespace Store

variable {s : Store} {key stem data : Bytes} {ttl : Int} {v shown : Value}

/-- What is given on a stem was given for live items under keys with it. -/
theorem live_of_onStem (hs : s.trie.Arranged) {β : Type} {p : Plan β} {given : List (Bytes × β)}
    (h : (s.onStem stem p.act).1 = .ok given) {m : Bytes × β} (hm : m ∈ given) :
    stem <+: m.1 ∧ ∃ item, s.liveUnder? m.1 = some item ∧ (p s.limits s.now item).1 = .ok m.2 := by
  by_cases hnil : s.trie.searchNodes stem = []
  · rw [onStem_of_nil hnil] at h
    cases h
  · rw [onStem_fst _ hs hnil] at h
    obtain rfl := Except.ok.inj h
    obtain ⟨⟨key, id⟩, hmem, hgives⟩ := List.mem_filterMap.1 hm
    obtain ⟨hstem, hf, -⟩ := (Trie.mem_searchNodes hs).1 hmem
    obtain ⟨item, hitem, hgiven⟩ := Option.bind_eq_some_iff.1 hgives
    obtain ⟨b, hb, rfl⟩ := Option.map_eq_some_iff.1 hgiven
    refine ⟨hstem, item, ?_, ok_of_toOption hb⟩
    rw [liveUnder?, hf, Option.bind_some, hitem]

/-- What a stem gives are the exposed values of live items. -/
theorem expose_of_getAll (hs : s.trie.Arranged) {pairs : List (Bytes × Value)}
    (h : (s.getAll stem).1 = .ok pairs) {p : Bytes × Value} (hp : p ∈ pairs) :
    stem <+: p.1 ∧ ∃ item, s.liveUnder? p.1 = some item ∧ expose item.value = .ok p.2 := by
  rw [getAll, ← Plan.act_read] at h
  obtain ⟨hstem, item, hlive, hread⟩ := live_of_onStem hs h hp
  exact ⟨hstem, item, hlive, expose_of_read hread⟩

/-- Storing gives the data back as it came. -/
theorem plain_of_set (h : (s.set key data ttl).1 = .ok v) : v = .plain data := by
  by_cases hover : s.OverBudget
  · rw [set_of_overBudget hover] at h
    cases h
  by_cases hb : s.Barred key
  · rw [set_of_barred hover hb] at h
    cases h
  · rw [set_of_free hover hb] at h
    exact (Except.ok.inj h).symm

end Store

theorem KeyOperation.proper_answer {op : KeyOperation} {key : Bytes} {s : Store} {answer : Answer}
    (h : (op.run key s).1 = .ok answer) : answer.reply.Proper := by
  cases op with
  | set data ttl =>
    obtain ⟨v, hv, rfl⟩ := Outcome.map_fst_eq_ok.1 h
    obtain rfl := Store.plain_of_set hv
    exact fun h => nomatch h
  | get =>
    obtain ⟨v, hv, rfl⟩ := Outcome.map_fst_eq_ok.1 h
    obtain ⟨item, -, hshown⟩ := Store.expose_of_get hv
    exact Store.encoding_of_expose hshown
  | _ =>
    obtain ⟨b, -, rfl⟩ := Outcome.map_fst_eq_ok.1 h
    first
      | exact Reply.proper_ok
      | exact Reply.proper_number _

theorem StemOperation.proper_answer {s : Store} (hs : s.trie.Arranged) {op : StemOperation}
    {stem : Bytes} {answer : Answer} (h : (op.run stem s).1 = .ok answer) :
    answer.reply.Proper := by
  cases op with
  | get =>
    obtain ⟨pairs, hpairs, rfl⟩ := Outcome.map_fst_eq_ok.1 h
    refine fun p (hp : p ∈ pairs) => ?_
    obtain ⟨-, item, -, hshown⟩ := Store.expose_of_getAll hs hpairs hp
    exact Store.encoding_of_expose hshown
  | keys =>
    obtain ⟨ks, -, rfl⟩ := Outcome.map_fst_eq_ok.1 h
    exact Reply.proper_numbered ks
  | _ =>
    obtain ⟨n, -, rfl⟩ := Outcome.map_fst_eq_ok.1 h
    exact Reply.proper_number _

theorem Operation.proper_answer {s : Store} (hs : s.trie.Arranged) {op : Operation}
    {answer : Answer} (h : (op.run s).1 = .ok answer) : answer.reply.Proper := by
  cases op with
  | onKey key op => exact KeyOperation.proper_answer h
  | onStem stem op => exact StemOperation.proper_answer hs h
  | destroyAll => obtain rfl := Except.ok.inj h; exact Reply.proper_number _
  | _ => obtain rfl := Except.ok.inj h; exact Reply.proper_ok

theorem Command.proper_run {s : Store} (hs : s.trie.Arranged) (c : Command) :
    (c.run s).1.Proper := by
  cases hop : c.operation? with
  | some op =>
    rw [run_eq hop]
    exact Outcome.proper_reply fun _ => Operation.proper_answer hs
  | none =>
    cases c with
    | stats => exact Reply.proper_statistics s
    | ping => exact Reply.proper_ok
    | finish => exact Reply.proper_ok
    | _ => cases hop

/-- **Every reply is proper.** -/
theorem Store.proper_dispatch {s : Store} (hs : s.trie.Arranged) (fields : FieldLimits)
    (r : Request) : (s.dispatch fields r).1.Proper := by
  unfold dispatch
  cases Command.ofRequest fields r with
  | ok command => exact Command.proper_run (s := s.countRequest) hs command
  | error refusal => exact refusal.proper_reply

/-! ## The law of replies -/

/-- The reply is proper, and short enough for its length to be announced. -/
def Reply.Sendable (r : Reply) : Prop := r.Proper ∧ r.encodedLength < 0x100000000

instance (r : Reply) : Decidable r.Sendable := inferInstanceAs (Decidable (_ ∧ _))

/-- **Replies delimit themselves.** In every store that a run leads to, every
request gets a proper reply: no value in it is compressed, and a bare
status announces neither a value nor pairs. A sendable reply is written in
just as many bytes as it counts for, and announces what comes after its
header. Reading gives it back whatever follows, and gives back any row of
sendable replies. So no two rows are written in the same bytes. -/
theorem replies_read_back {s : Store} (hs : s.Reachable) :
    (∀ (fields : FieldLimits) (r : Request), (s.dispatch fields r).1.Proper) ∧
    (∀ r : Reply, r.Sendable →
      r.write.length = r.encodedLength ∧
      Reply.announced r.write = r.encodedLength - Reply.headerLength ∧
      ∀ rest, Reply.read? (r.write ++ rest) = some (r, rest)) ∧
    (∀ rs : List Reply, (∀ r ∈ rs, r.Sendable) →
      Reply.readAll? (rs.flatMap Reply.write) = some rs) ∧
    (∀ rs rs' : List Reply, (∀ r ∈ rs, r.Sendable) → (∀ r ∈ rs', r.Sendable) →
      rs.flatMap Reply.write = rs'.flatMap Reply.write → rs = rs') := by
  refine ⟨Store.proper_dispatch hs.sound.arranged, ?_, fun _ => Reply.readAll?_flatMap_write, ?_⟩
  · rintro r ⟨hproper, hlength⟩
    exact ⟨r.length_write, Reply.announced_write hlength, Reply.read?_write hproper hlength⟩
  · intro rs rs' hrs hrs' hbytes
    have hread := Reply.readAll?_flatMap_write hrs
    rw [hbytes, Reply.readAll?_flatMap_write hrs'] at hread
    exact (Option.some.inj hread).symm

/-- Requests for all keys with a stem, for their names, and for nothing. -/
def Request.roundabout : List Request :=
  [⟨.allGet, [97]⟩, ⟨.keys, [97]⟩, ⟨.ping, []⟩, ⟨.get, [98]⟩]

theorem squeezed_replies_read_back :
    let replies := Request.roundabout.map fun r => (Store.squeezed.dispatch {} r).1
    Store.squeezed.Reachable ∧
      (Store.squeezed.trie.find? [97]).any (·.value.encoding = .compressed) ∧
      (∀ r ∈ replies, r.Sendable) ∧
      Reply.readAll? (replies.flatMap Reply.write) = some replies := by
  intro replies
  have hs : Store.squeezed.Reachable := .after (.empty _ 100) fun _ _ => trivial
  obtain ⟨-, -, hread, -⟩ := replies_read_back hs
  have hsendable : ∀ r ∈ replies, r.Sendable := by decide +kernel
  exact ⟨hs, by decide +kernel, hsendable, hread replies hsendable⟩

end PrefixCache

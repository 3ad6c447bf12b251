import PrefixCache.Proofs.Request.Replying
import PrefixCache.Proofs.Request.Serving
/-!
# What requests touch

A command names the keys it is for (`Command.Names`), one key or all keys
with a stem, and leaves what is under other keys as it is, lapsed items
included. Under the keys it names, a command that only looks leaves live
items as they are, and one that reads stamps them with the clock. What it
returns are the values of live items it names, and of all of them if these
can be read (`request_touches_what_it_names`).
-/

namespace PrefixCache

/-! ## Operations under their keys -/

section Run

variable {s : Store} {key : Bytes} {item : Item}

/-- An operation on a key leaves there what its plan leaves. -/
theorem KeyOperation.find?_run_self (hs : s.trie.Arranged) {op : KeyOperation} {r : KeyReading}
    (h : op.reading? = some r) (key : Bytes) :
    (op.run key s).2.trie.find? key = r.plan.leavesUnder s key := by
  rw [run_eq h]
  exact (Store.find?_onKey hs r.plan key key).trans (if_pos rfl)

/-- So does an operation on a stem under all keys with it. -/
theorem StemOperation.find?_run_of_inside (hs : s.trie.Arranged) {op : StemOperation}
    (hfits : op.Stores → ¬ s.OverBudget) {stem : Bytes} (h : stem <+: key) :
    (op.run stem s).2.trie.find? key = (op.reading s).plan.leavesUnder s key := by
  rw [run_eq hfits]
  exact (Store.find?_onStem hs _ stem key).trans (if_pos h)

end Run

/-! ## Commands -/

namespace Command

/-- The command is for the key. -/
def Names (key : Bytes) : Command → Prop
  | set target _ _ | ttl target _ | get target | del target | add target _ | lock target _
  | unlock target | ask target _ => target = key
  | allSet stem _ | allTtl stem _ | allGet stem | allDel stem | allAdd stem _ | allLock stem _
  | allUnlock stem | count stem | keys stem => stem <+: key
  | stats | ping | finish => False

/-- The command looks at items and does not use them. -/
def Looks : Command → Prop
  | ask _ _ | count _ | keys _ => True
  | _ => False

/-- The command reads values. -/
def Reads : Command → Prop
  | get _ | allGet _ => True
  | _ => False

/-- The reply to the command returns the value as that of the key. -/
def Returns (reply : Reply) (key : Bytes) (v : Value) : Command → Prop
  | get target => target = key ∧ reply = .value v
  | allGet _ => ∃ ps, reply = .pairs ps ∧ (key, v) ∈ ps
  | _ => False

variable {c : Command} {s : Store} {key : Bytes} {item : Item}

/-- **A command leaves what it does not name.** -/
theorem find?_run_of_not_names (hs : s.trie.Arranged) (h : ¬ c.Names key) :
    (c.run s).2.trie.find? key = s.trie.find? key := by
  rw [run_snd]
  cases c with
  | stats | ping | finish => rfl
  | _ =>
    first
      | exact KeyOperation.find?_run_of_ne hs _ h
      | exact StemOperation.find?_run_of_outside hs _ h

/-- **Looking leaves live items as they are.** -/
theorem find?_run_of_looks (hs : s.trie.Arranged) (hc : c.Looks) (hnames : c.Names key)
    (hlive : s.liveUnder? key = some item) : (c.run s).2.trie.find? key = some item := by
  rw [run_snd]
  cases c with
  | ask target a =>
    obtain rfl : target = key := hnames
    exact (KeyOperation.find?_run_self hs rfl target).trans (Plan.leavesUnder_of_live _ hlive)
  | count stem =>
    exact (StemOperation.find?_run_of_inside hs False.elim hnames).trans
      (Plan.leavesUnder_of_live Plan.keep hlive)
  | keys stem =>
    exact (StemOperation.find?_run_of_inside hs False.elim hnames).trans
      (Plan.leavesUnder_of_live Plan.keep hlive)
  | _ => exact hc.elim

/-- **Reading stamps live items with the clock.** -/
theorem find?_run_of_reads (hs : s.trie.Arranged) (hc : c.Reads) (hnames : c.Names key)
    (hlive : s.liveUnder? key = some item) :
    (c.run s).2.trie.find? key = some { item with lastAccess := s.now } := by
  rw [run_snd]
  cases c with
  | get target =>
    obtain rfl : target = key := hnames
    exact (KeyOperation.find?_run_self hs rfl target).trans (Plan.leavesUnder_of_live _ hlive)
  | allGet stem =>
    exact (StemOperation.find?_run_of_inside hs False.elim hnames).trans
      (Plan.leavesUnder_of_live Plan.read hlive)
  | _ => exact hc.elim

/-- **What is returned are values of live items that are named.** -/
theorem live_of_returns (hs : s.trie.Arranged) {v : Value} (h : c.Returns (c.run s).1 key v) :
    c.Names key ∧ ∃ item, s.liveUnder? key = some item ∧ Store.expose item.value = .ok v := by
  cases c with
  | get target =>
    obtain ⟨rfl, hreply⟩ := h
    obtain ⟨b, hget, hb⟩ := Outcome.ok_of_reply (o := s.get target) hreply nofun
    obtain rfl := Reply.value.inj hb
    exact ⟨rfl, Store.expose_of_get hget⟩
  | allGet stem =>
    obtain ⟨ps, hreply, hmem⟩ := h
    obtain ⟨b, hget, hb⟩ := Outcome.ok_of_reply (o := s.getAll stem) hreply nofun
    obtain rfl := Reply.pairs.inj hb
    exact Store.expose_of_getAll hs hget hmem
  | _ => exact h.elim

/-- **Where values can be read, reading returns all live items** that are
named. -/
theorem returns_of_live (hs : s.trie.Arranged) (hlegible : s.Holding Value.Legible)
    (hc : c.Reads) (hnames : c.Names key) (hlive : s.liveUnder? key = some item) :
    ∃ v, Store.expose item.value = .ok v ∧ c.Returns (c.run s).1 key v := by
  obtain ⟨hitem, hlapsed⟩ := Store.liveUnder?_eq_some.1 hlive
  cases c with
  | get target =>
    obtain rfl : target = key := hnames
    obtain ⟨v, hv⟩ := hlegible.of_find? hitem
    exact ⟨v, hv, rfl, Outcome.reply_of_ok (Store.get_of_live hlive hv)⟩
  | allGet stem =>
    have hmem : (key, item) ∈ s.trie.search stem := (Trie.mem_search hs).2 ⟨hnames, hitem⟩
    have hread := Store.getAll_fst hs (List.ne_nil_of_mem hmem)
    obtain ⟨v, hv, hpair⟩ := Store.exists_mem_of_getAll hs (hlegible.legible_of_search hs) hread
      hmem hlapsed
    exact ⟨v, hv, _, Outcome.reply_of_ok hread, hpair⟩
  | _ => exact hc.elim

end Command

/-! ## The law of scope -/

/-- **Requests only touch what they name.** In every store that a run leads
to, whatever the body of a request is, what is under a key that its command
does not name stays the same, lapsed items included; a body that is no
command names no key. Let the command name a key with a live item. If it
only looks, the item stays the same. If it reads, the item is stamped with
the clock and changed in nothing else, and if all data that was brought in
survives compression, its value is returned. Whatever is returned is the
value of a live item under a key that the command names. -/
theorem request_touches_what_it_names {s : Store} (hs : s.Reachable) (fields : FieldLimits)
    (body : Bytes) :
    let after := (s.execute fields body).2
    (∀ key, (∀ c, Command.ofBody? fields body = some c → ¬ c.Names key) →
      after.trie.find? key = s.trie.find? key) ∧
    (∀ c, Command.ofBody? fields body = some c → ∃ reply,
      (s.execute fields body).1 = .ok reply ∧
      (∀ key item, c.Names key → s.trie.find? key = some item → ¬ item.Lapsed s.now →
        (c.Looks → after.trie.find? key = some item) ∧
        (c.Reads → after.trie.find? key = some { item with lastAccess := s.now } ∧
          (s.Reached Operation.Restores →
            ∃ v, Store.expose item.value = .ok v ∧ c.Returns reply key v))) ∧
      (∀ key v, c.Returns reply key v → c.Names key ∧
        ∃ item, s.trie.find? key = some item ∧ ¬ item.Lapsed s.now ∧
          Store.expose item.value = .ok v)) := by
  intro after
  have ht : s.countRequest.trie.Arranged := hs.sound.arranged
  refine ⟨fun key hnames => ?_, fun c hc => ⟨_, by rw [Store.execute_of_command hc], ?_, ?_⟩⟩
  · cases hc : Command.ofBody? fields body with
    | none =>
      obtain ⟨answer, hsame | hsame⟩ := Store.execute_of_no_command hc
      · simp only [after, hsame]
      · simp only [after, hsame]
        rfl
    | some c =>
      simp only [after, Store.execute_of_command hc]
      exact Command.find?_run_of_not_names ht (hnames c hc)
  · intro key item hnames hitem hlapsed
    have hlive : s.countRequest.liveUnder? key = some item :=
      Store.liveUnder?_eq_some.2 ⟨hitem, hlapsed⟩
    simp only [after, Store.execute_of_command hc]
    exact ⟨fun hlooks => Command.find?_run_of_looks ht hlooks hnames hlive, fun hreads =>
      ⟨Command.find?_run_of_reads ht hreads hnames hlive, fun hreached =>
        Command.returns_of_live (s := s.countRequest) ht hreached.legible hreads hnames hlive⟩⟩
  · intro key v hreturns
    obtain ⟨hnames, item, hlive, hv⟩ := Command.live_of_returns ht hreturns
    obtain ⟨hitem, hlapsed⟩ := Store.liveUnder?_eq_some.1 hlive
    exact ⟨hnames, item, hitem, hlapsed, hv⟩

/-- A store with a compressed item, a locked one below it, and one that has
lapsed beside them. -/
def Store.neighbourly : Store :=
  squeezed.after [.onKey [98] (.set [2] 5), .setClock 106]

theorem neighbours_stay_the_same :
    let s := Store.neighbourly
    let after := (s.execute {} [3, 0, 97]).2
    s.Reachable ∧
      (s.trie.find? [98]).any (fun item => item.Lapsed s.now) ∧
      (s.trie.find? [97, 98]).any (fun item => item.Locked s.now) ∧
      after.trie.find? [98] = s.trie.find? [98] ∧
      after.trie.find? [97, 98] = s.trie.find? [97, 98] ∧
      ∃ item, s.trie.find? [97] = some item ∧
        after.trie.find? [97] = some { item with lastAccess := 106 } := by
  intro s after
  have hs : s.Reachable :=
    .after (.after (.empty _ 100) fun _ _ => trivial) fun _ _ => trivial
  have hc : Command.ofBody? {} [3, 0, 97] = some (.get [97]) := by decide +kernel
  obtain ⟨hothers, hnamed⟩ := request_touches_what_it_names hs {} [3, 0, 97]
  obtain ⟨reply, -, hitems, -⟩ := hnamed _ hc
  have hsome : (s.trie.find? [97]).isSome := by decide +kernel
  obtain ⟨item, hitem⟩ := Option.isSome_iff_exists.1 hsome
  have hother : ∀ key, [97] ≠ key → after.trie.find? key = s.trie.find? key := by
    refine fun key hne => hothers key fun c hc' => ?_
    obtain rfl := Option.some.inj (hc.symm.trans hc')
    exact hne
  have hlive : ¬ item.Lapsed s.now := by
    have hany : (s.trie.find? [97]).all (fun item => ¬ item.Lapsed s.now) := by decide +kernel
    rw [hitem] at hany
    exact of_decide_eq_true hany
  exact ⟨hs, by decide +kernel, by decide +kernel, hother _ (by decide), hother _ (by decide), item,
    hitem, ((hitems [97] item rfl hitem hlive).2 trivial).1⟩

end PrefixCache

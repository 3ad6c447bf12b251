import PrefixCache.Proofs.Request.Replying
import PrefixCache.Proofs.Request.Serving
import PrefixCache.Proofs.Store.Twin
/-!
# Compression goes unnoticed

Clients cannot tell above which length values are compressed. Two stores
that differ in nothing else are twins, and the same events keep them twins:
every request is answered alike, as long as no client adds, or asks how
values are kept, and neither store is ever over its budget
(`compression_is_unnoticed`).
-/

namespace PrefixCache

/-! ## Discreet commands -/

/-- A client's operation that neither adds nor asks how values are kept. -/
def Operation.Discreet : Operation → Prop
  | onKey _ op => op.Discreet
  | onStem _ op => op.Discreet
  | _ => False

/-- The command neither adds nor asks how values are kept. -/
def Command.Discreet : Command → Prop
  | add _ _ | allAdd _ _ | stats => False
  | ask _ a => a ≠ .size ∧ a ≠ .encoding
  | _ => True

instance : (c : Command) → Decidable c.Discreet
  | .add _ _ | .allAdd _ _ | .stats => .isFalse id
  | .ask _ a => inferInstanceAs (Decidable (a ≠ .size ∧ a ≠ .encoding))
  | .set _ _ _ | .ttl _ _ | .get _ | .del _ | .lock _ _ | .unlock _ | .allSet _ _ | .allTtl _ _
  | .allGet _ | .allDel _ | .allLock _ _ | .allUnlock _ | .count _ | .keys _ | .ping
  | .finish => .isTrue trivial

theorem Command.Discreet.operation {c : Command} (hc : c.Discreet) {op : Operation}
    (h : c.operation? = some op) : op.Discreet := by
  cases c <;> cases h <;> exact hc

theorem Outcome.reply_fst_congr {β : Type} {make : β → Reply} {o o' : Outcome β}
    (h : o'.1 = o.1) : (o'.reply make).1 = (o.reply make).1 := by
  obtain ⟨r, s⟩ := o
  obtain ⟨r', s'⟩ := o'
  obtain rfl : r' = r := h
  cases r' <;> rfl

section Twin

variable {s t : Store} (h : s.Twin t) (hs : s.trie.Arranged) (hsover : ¬ s.OverBudget)
  (htover : ¬ t.OverBudget)

include h hs hsover htover

theorem Operation.twin_run {op : Operation} (hop : op.Discreet) (hrestores : op.Restores) :
    (op.run t).1 = (op.run s).1 ∧ (op.run s).2.Twin (op.run t).2 := by
  cases op with
  | onKey key op => exact KeyOperation.twin_run h hs hop hrestores hsover htover
  | onStem stem op => exact StemOperation.twin_run h hs hop hrestores hsover htover
  | _ => exact hop.elim

theorem Command.twin_run {c : Command} (hc : c.Discreet)
    (hrestores : ∀ op ∈ c.operation?, op.Restores) :
    (c.run t).1 = (c.run s).1 ∧ (c.run s).2.Twin (c.run t).2 := by
  cases hop : c.operation? with
  | some op =>
    obtain ⟨hanswer, hstore⟩ :=
      Operation.twin_run h hs hsover htover (hc.operation hop) (hrestores op hop)
    rw [run_eq hop, run_eq hop, Outcome.reply_snd, Outcome.reply_snd]
    exact ⟨Outcome.reply_fst_congr hanswer, hstore⟩
  | none =>
    cases c with
    | stats => exact hc.elim
    | ping => exact ⟨rfl, h⟩
    | finish => exact ⟨rfl, h⟩
    | _ => cases hop

end Twin

/-! ## Events -/

namespace Event

/-- The reply to a request. -/
def reply? (s : Store) : Event → Option (Except BodyError Reply)
  | request fields body => some (s.execute fields body).1
  | _ => none

/-- A request of the event neither adds nor asks how values are kept. -/
def Discreet : Event → Prop
  | request fields body => ∀ c ∈ Command.ofBody? fields body, c.Discreet
  | _ => True

instance : (e : Event) → Decidable e.Discreet
  | request fields body =>
    inferInstanceAs (Decidable (∀ c ∈ Command.ofBody? fields body, c.Discreet))
  | expireSweep | memorySweep | destroyAll | setClock _ => .isTrue trivial

theorem reachable_run {s : Store} (hs : s.Reachable) (e : Event) : (e.run s).Reachable := by
  rw [run_eq_after]
  exact hs.after fun _ _ => trivial

/-- **An event does not show in what form values are kept**: what is replied
is the same, and twins stay twins. -/
theorem twin_run {s t : Store} (h : s.Twin t) (hs : s.trie.Arranged) {e : Event}
    (he : e.Discreet) (hrestores : e.Restores) (hsover : ¬ s.OverBudget)
    (htover : ¬ t.OverBudget) :
    e.reply? t = e.reply? s ∧ (e.run s).Twin (e.run t) := by
  cases e with
  | request fields body =>
    have hcounted : s.countRequest.Twin t.countRequest := ⟨h.shape, h.now, h.maxItemTtl, h.shown⟩
    simp only [reply?, run]
    cases hc : Command.ofBody? fields body with
    | none =>
      obtain ⟨answer, hsame | hsame⟩ := Store.execute_of_no_command hc
      · rw [hsame, hsame]
        exact ⟨rfl, h⟩
      · rw [hsame, hsame]
        exact ⟨rfl, hcounted⟩
    | some c =>
      obtain ⟨hreply, hstore⟩ := Command.twin_run hcounted hs hsover htover (he c hc)
        fun op hop => hrestores op (by rw [operation?, hc]; exact hop)
      rw [Store.execute_of_command hc, Store.execute_of_command hc]
      exact ⟨congrArg (fun r => some (Except.ok r)) hreply, hstore⟩
  | expireSweep => exact ⟨rfl, h.expireSweep hs⟩
  | memorySweep => exact ⟨rfl, h.memorySweep hsover htover⟩
  | destroyAll => exact ⟨rfl, h.destroyAll⟩
  | setClock now => exact ⟨rfl, h.setClock now⟩

end Event

/-! ## Runs of events -/

namespace Store

/-- The replies to the requests among events, in order. -/
def replies (s : Store) : List Event → List (Except BodyError Reply)
  | [] => []
  | e :: events => (e.reply? s).toList ++ (e.run s).replies events

/-- The budget is kept before each of the events. -/
def KeepsBudget (s : Store) : List Event → Prop
  | [] => True
  | e :: events => ¬ s.OverBudget ∧ (e.run s).KeepsBudget events

/-- Whether a store keeps its budget can be tried out. -/
def decidableKeepsBudget (s : Store) : (events : List Event) → Decidable (s.KeepsBudget events)
  | [] => .isTrue trivial
  | e :: events =>
    have := (e.run s).decidableKeepsBudget events
    inferInstanceAs (Decidable (¬ s.OverBudget ∧ (e.run s).KeepsBudget events))

instance (s : Store) (events : List Event) : Decidable (s.KeepsBudget events) :=
  s.decidableKeepsBudget events

/-- **Twins give the same replies.** -/
theorem Twin.replies {s t : Store} (h : s.Twin t) (hs : s.Reachable) {events : List Event}
    (hevents : ∀ e ∈ events, e.Discreet ∧ e.Restores) (hsbudget : s.KeepsBudget events)
    (htbudget : t.KeepsBudget events) : t.replies events = s.replies events := by
  induction events generalizing s t with
  | nil => rfl
  | cons e events ih =>
    obtain ⟨⟨hdiscreet, hrestores⟩, hrest⟩ := List.forall_mem_cons.1 hevents
    obtain ⟨hsover, hslater⟩ := hsbudget
    obtain ⟨htover, htlater⟩ := htbudget
    obtain ⟨hreply, htwin⟩ :=
      Event.twin_run h hs.sound.arranged hdiscreet hrestores hsover htover
    rw [Store.replies, Store.replies, hreply,
      ih htwin (Event.reachable_run hs e) hrest hslater htlater]

/-- The store with another threshold for compression. -/
def compressingAbove (s : Store) (threshold : Nat) : Store :=
  { s with limits := { s.limits with compressAbove := threshold } }

end Store

/-! ## The law of compression -/

/-- **Clients do not notice compression.** Let two stores that some run leads
to differ in the threshold for compression only. Let the same events happen
to both: requests of which none adds or asks how values are kept, sweeps
and moves of the clock, where the data that is brought in survives
compression. As long as neither is over its budget, both give the same
reply to every request. -/
theorem compression_is_unnoticed {s : Store} (hs : s.Reachable) (threshold : Nat)
    {events : List Event} (hevents : ∀ e ∈ events, e.Discreet ∧ e.Restores)
    (hbudget : s.KeepsBudget events)
    (hbudget' : (s.compressingAbove threshold).KeepsBudget events) :
    (s.compressingAbove threshold).replies events = s.replies events :=
  have htwin : s.Twin (s.compressingAbove threshold) := ⟨.refl _, rfl, rfl, fun _ => rfl⟩
  htwin.replies hs hevents hbudget hbudget'

/-- Events that store a long value under `a` and a short one under `ab`, and
read, replace and list them, with a sweep in between. -/
def Event.roundabout : List Event :=
  [.request {} ([1, 0, 48, 32, 97, 32] ++ List.replicate 32 7),
    .request {} [1, 0, 53, 32, 97, 98, 32, 104, 105],
    .request {} [11, 0, 97],
    .request {} ([9, 0, 97, 32] ++ List.replicate 24 9),
    .setClock 200,
    .expireSweep,
    .request {} [3, 0, 97],
    .request {} [21, 0, 97]]

theorem roundabout_does_not_notice :
    let s := Store.empty {} 100
    let t := s.compressingAbove 8
    ((t.serve Event.roundabout).trie.find? [97]).any (·.value.encoding = .compressed) ∧
      ((s.serve Event.roundabout).trie.find? [97]).any (·.value.encoding = .plain) ∧
      t.replies Event.roundabout = s.replies Event.roundabout := by
  intro s t
  exact ⟨by decide +kernel, by decide +kernel,
    compression_is_unnoticed (.empty {} 100) 8 (by decide +kernel) (by decide +kernel)
      (by decide +kernel)⟩

end PrefixCache

import PrefixCache.Proofs.Store.Alike
/-!
# Expiry on access and by sweeping

A lapsed item goes when an operation meets it, or when a sweep comes by.
Clients cannot tell which came first (`lazy_expiry_is_eager`), but for one
thing: a stem whose members have all lapsed is found, and empty, as long
as they are there.
-/

namespace PrefixCache

/-- What an operation on a stem answers when no member is left to it. -/
def StemOperation.nothing : StemOperation → Answer
  | get => .pairs []
  | keys => .keys []
  | _ => .count 0

/-- A client's operation that the budget does not refuse. -/
def Operation.Admitted (s : Store) : Operation → Prop
  | onKey _ op => op.Stores → ¬ s.OverBudget
  | onStem _ op => op.Stores → ¬ s.OverBudget
  | _ => False

namespace Store

variable {s : Store} {stem : Bytes}

/-- There are members, and all of them have lapsed. -/
def Faded (s : Store) (stem : Bytes) : Prop :=
  s.trie.search stem ≠ [] ∧ ∀ m ∈ s.trie.search stem, m.2.Lapsed s.now

instance (s : Store) (stem : Bytes) : Decidable (s.Faded stem) :=
  inferInstanceAs (Decidable (_ ∧ _))

/-- Sweeping takes all members away just when all have lapsed. -/
theorem search_expireSweep_eq_nil_iff (hs : s.trie.Arranged) :
    s.expireSweep.2.trie.search stem = [] ↔ ∀ m ∈ s.trie.search stem, m.2.Lapsed s.now := by
  rw [Trie.search_eq_nil_iff, Trie.searchNodes_eq_nil_iff (hs.congr (sameGround_expireSweep s).shape)]
  constructor
  · rintro h ⟨key, item⟩ hmem
    obtain ⟨hstem, hitem⟩ := (Trie.mem_search hs).1 hmem
    by_contra hlive
    have hnone := h key hstem
    rw [find?_expireSweep hs, liveUnder?_eq_some.2 ⟨hitem, hlive⟩] at hnone
    cases hnone
  · intro h key hstem
    rw [find?_expireSweep hs, Option.eq_none_iff_forall_ne_some]
    intro item hitem
    obtain ⟨hf, hlive⟩ := liveUnder?_eq_some.1 hitem
    exact hlive (h (key, item) ((Trie.mem_search hs).2 ⟨hstem, hf⟩))

end Store

/-- A stem whose members have all lapsed is found, and empty; once swept it
is not found. -/
theorem StemOperation.run_of_faded {s : Store} (hs : s.trie.Arranged) {op : StemOperation}
    (hfits : op.Stores → ¬ s.OverBudget) {stem : Bytes} (h : s.Faded stem) :
    (op.run stem s).1 = .ok op.nothing ∧ (op.run stem s.expireSweep.2).1 = .error .notFound := by
  have halike := Store.Alike.of_expireSweep hs
  have hfits' := Store.fits_expireSweep hfits
  have hsome := mt Trie.search_eq_nil_iff.2 h.1
  have hnil := (Store.search_expireSweep_eq_nil_iff hs).2 h.2
  have hanswer : (op.reading s).answer [] = op.nothing := by cases op <;> rfl
  rw [run_eq hfits, run_of_no_members hfits' hnil]
  refine ⟨?_, rfl⟩
  simp only [Outcome.map]
  rw [Store.onStem_fst _ hs hsome, ← halike.filterMap_gives hs, Trie.search_eq_nil_iff.1 hnil]
  exact congrArg Except.ok hanswer

/-- Any other stem gives the same before and after the sweep. -/
theorem StemOperation.run_of_not_faded {s : Store} (hs : s.trie.Arranged) {op : StemOperation}
    (hfits : op.Stores → ¬ s.OverBudget) {stem : Bytes} (h : ¬ s.Faded stem) :
    (op.run stem s.expireSweep.2).1 = (op.run stem s).1 := by
  have halike := Store.Alike.of_expireSweep hs
  have hfits' := Store.fits_expireSweep hfits
  by_cases hnil : s.trie.search stem = []
  · -- a sweep brings no member in
    have hswept : s.expireSweep.2.trie.search stem = [] := by
      rw [Store.search_expireSweep_eq_nil_iff hs, hnil]
      exact fun m hm => absurd hm (List.not_mem_nil)
    rw [run_of_no_members hfits hnil, run_of_no_members hfits' hswept]
  · refine (alike_run halike hs hfits hfits' stem).1 hnil fun hswept => ?_
    exact h ⟨hnil, (Store.search_expireSweep_eq_nil_iff hs).1 hswept⟩

/-- After a client's operation a store and its sweep are alike again. -/
theorem Operation.alike_run {s : Store} (hs : s.trie.Arranged) {op : Operation}
    (hop : op.Admitted s) : (op.run s).2.Alike (op.run s.expireSweep.2).2 := by
  have halike := Store.Alike.of_expireSweep hs
  cases op with
  | onKey key op =>
    exact (KeyOperation.alike_run halike hs hop (Store.fits_expireSweep hop) key).2
  | onStem stem op =>
    exact (StemOperation.alike_run halike hs hop (Store.fits_expireSweep hop) stem).2
  | _ => exact hop.elim

/-- **Expiry on access and expiry by sweeping come to the same**, in every
store that a run leads to. A client's operation answers the same whether
or not what has lapsed was swept out before, except on a stem whose
members have all lapsed: that is found, and empty, before the sweep, and
not found after it. In every case a sweep afterwards leaves the same items
under all keys, and the same memory and numbers of items. -/
theorem lazy_expiry_is_eager {s : Store} (hs : s.Reachable) :
    (∀ (op : KeyOperation) (key : Bytes), (op.Stores → ¬ s.OverBudget) →
      (op.run key s.expireSweep.2).1 = (op.run key s).1) ∧
    (∀ (op : StemOperation) (stem : Bytes), (op.Stores → ¬ s.OverBudget) →
      (s.Faded stem →
        (op.run stem s).1 = .ok op.nothing ∧
          (op.run stem s.expireSweep.2).1 = .error .notFound) ∧
      (¬ s.Faded stem → (op.run stem s.expireSweep.2).1 = (op.run stem s).1)) ∧
    (∀ op : Operation, op.Admitted s →
      let late := (op.run s).2.expireSweep.2
      let early := (op.run s.expireSweep.2).2.expireSweep.2
      (∀ key, early.trie.find? key = late.trie.find? key) ∧
        early.counters.memoryUsed = late.counters.memoryUsed ∧
        early.counters.items = late.counters.items ∧
        early.counters.compressedItems = late.counters.compressedItems) := by
  have hsound := hs.sound
  have halike := Store.Alike.of_expireSweep hsound.arranged
  refine ⟨fun op key hfits => ?_, fun op stem hfits => ⟨?_, ?_⟩, fun op hop => ?_⟩
  · have hfits' := Store.fits_expireSweep hfits
    exact (KeyOperation.alike_run halike hsound.arranged hfits hfits' key).1
  · exact StemOperation.run_of_faded hsound.arranged hfits
  · exact StemOperation.run_of_not_faded hsound.arranged hfits
  · have hlate := (Operation.upholds_run hsound op).sound
    have hearly := (Operation.upholds_run (Store.upholds_expireSweep hsound).sound op).sound
    exact (Operation.alike_run hsound.arranged hop).swept hlate hearly

/-- A store with a lapsed item and a live one. -/
def Store.fading : Store :=
  (Store.empty {} 100).after
    [.onKey [97] (.set [1] 2), .onKey [98] (.set [2] 50), .setClock 105]

theorem fading_is_swept :
    Store.fading.Reachable ∧ Store.fading.Faded [97] ∧ ¬ Store.fading.Faded [] ∧
      (StemOperation.count.run [97] Store.fading).1 = .ok (.count 0) ∧
      (StemOperation.count.run [97] Store.fading.expireSweep.2).1 = .error .notFound ∧
      (StemOperation.keys.run [] Store.fading.expireSweep.2).1 =
        (StemOperation.keys.run [] Store.fading).1 := by
  have hs : Store.fading.Reachable := Store.Reached.after (.empty {} 100) fun _ _ => trivial
  have hfaded : Store.fading.Faded [97] := by decide
  have hlive : ¬ Store.fading.Faded [] := by decide
  obtain ⟨-, hstem, -⟩ := lazy_expiry_is_eager hs
  obtain ⟨hbefore, hafter⟩ := (hstem .count [97] False.elim).1 hfaded
  exact ⟨hs, hfaded, hlive, hbefore, hafter, (hstem .keys [] False.elim).2 hlive⟩

end PrefixCache

import PrefixCache.Proofs.Store.Values
import PrefixCache.Proofs.Store.Visiting
/-!
# Operations on a stem are folds

Every operation on a stem is the fold of the operation on one key over the
members (`stem_operation_is_fold`). So is replacing all values, as long as
the budget holds out. A stem without members is not found and nothing
happens. And where all stored data can be read, reading, counting and
listing see the same members.
-/

namespace PrefixCache

namespace Store

variable {β γ : Type} {s : Store} {stem : Bytes}

/-- How many visits succeeded. -/
def counted (visits : List (Bytes × β) × Store) : Outcome Nat := (.ok visits.1.length, visits.2)

/-- What the visits gave. -/
def listed (visits : List (Bytes × β) × Store) : Outcome (List (Bytes × β)) :=
  (.ok visits.1, visits.2)

/-- Before each of the visits the budget is kept. -/
def VisitsFit (s : Store) (stem : Bytes) (op : Bytes → Store → Outcome β) : Prop :=
  ∀ n < (s.trie.search stem).length,
    ¬ ((((s.trie.search stem).map Prod.fst).take n).foldl (visitKey op) ([], s)).2.OverBudget

instance (s : Store) (stem : Bytes) (op : Bytes → Store → Outcome β) :
    Decidable (s.VisitsFit stem op) :=
  inferInstanceAs (Decidable (∀ n < _, ¬ OverBudget _))

/-! ## Operations on a live key -/

theorem add_of_live {key : Bytes} {id : NodeId} {item : Item}
    (hf : s.trie.findNode? key = some id) (hitem : s.liveItem? id = some item) (delta : Int64) :
    s.add key delta = (Plan.add delta).act id item s := by
  have hlive : s.liveUnder? key = some item := by rw [liveUnder?, hf, Option.bind_some, hitem]
  rw [add_of_some hlive, onKey_of_live hf hitem]

/-- Storing under a live key replaces its item, unless that is locked. -/
theorem set_of_live {key : Bytes} {id : NodeId} {item : Item} (hover : ¬ s.OverBudget)
    (hf : s.trie.findNode? key = some id) (hitem : s.liveItem? id = some item) (data : Bytes) :
    (s.set key data (-1)).map (fun _ => ()) =
      (Plan.replace data.length (s.encode data)).act id item s := by
  have hfind : s.trie.find? key = some item :=
    (Trie.find?_of_findNode? hf).trans (liveItem?_eq_some.1 hitem).1
  by_cases hl : item.Locked s.now
  · -- under the lock both are refused
    rw [set_of_barred hover ⟨item, hfind, hl⟩]
    simp only [Plan.act, Plan.replace, Plan.unlessLocked, if_pos hl]
    rfl
  · -- the item is live, so looking at the key leaves the store as it is
    have hfree : ¬ s.Barred key := by
      rintro ⟨item', hfind', hl'⟩
      obtain rfl := Option.some.inj (hfind.symm.trans hfind')
      exact hl hl'
    have hlook : (s.liveKey key).2 = s := by rw [liveKey_of_some hf, liveAt_of_some hitem]
    rw [set_of_free hover hfree, hlook, put_eq, bringIn_of_findNode? hf item]
    simp only [Plan.act, Plan.replace, Plan.unlessLocked, if_neg hl]
    rfl

/-! ## The folds -/

theorem onStem_eq_listed (hs : s.trie.Arranged) (hne : s.trie.search stem ≠ []) (p : Plan β) :
    s.onStem stem p.act = listed (s.visitKeys stem fun key s => s.onKey key p.act) :=
  onStem_eq_visitKeys hs hne p _ (fun _ => True)
    (fun _ _ _ _ _ _ hf hitem => onKey_of_live hf hitem p.act) fun _ _ => trivial

theorem countOnStem_eq_counted (hs : s.trie.Arranged) (hne : s.trie.search stem ≠ [])
    (p : Plan β) :
    s.countOnStem stem p.act = counted (s.visitKeys stem fun key s => s.onKey key p.act) := by
  rw [countOnStem, onStem_eq_listed hs hne]
  rfl

theorem addAll_eq_counted (hs : s.trie.Arranged) (hne : s.trie.search stem ≠ []) (delta : Int64) :
    s.addAll stem delta = counted (s.visitKeys stem fun key s => s.add key delta) := by
  have hvisits := onStem_eq_visitKeys hs hne (Plan.add delta) (fun key s => s.add key delta)
    (fun _ => True) (fun _ _ _ _ _ _ hf hitem => add_of_live hf hitem delta) fun _ _ => trivial
  rw [Plan.act_add] at hvisits
  rw [addAll, countOnStem, hvisits]
  rfl

/-- Reading the results in another way changes nothing else. -/
theorem foldl_visitKey_map (op : Bytes → Store → Outcome β) (f : β → γ) (keys : List Bytes)
    (given : List (Bytes × β)) (s : Store) :
    keys.foldl (visitKey fun key s => (op key s).map f) (given.map (Prod.map id f), s) =
      ((keys.foldl (visitKey op) (given, s)).1.map (Prod.map id f),
        (keys.foldl (visitKey op) (given, s)).2) := by
  induction keys generalizing given s with
  | nil => rfl
  | cons key keys ih =>
    have hstep : visitKey (fun key s => (op key s).map f) (given.map (Prod.map id f), s) key =
        ((visitKey op (given, s) key).1.map (Prod.map id f), (visitKey op (given, s) key).2) := by
      simp only [visitKey, Outcome.map]
      split
      · rfl
      · cases hr : op key s with
        | mk result s' => cases result <;> simp [Except.map]
    rw [List.foldl_cons, List.foldl_cons, hstep]
    exact ih _ _

theorem setAll_eq_counted (hs : s.trie.Arranged) (hne : s.trie.search stem ≠ []) {data : Bytes}
    (hfits : s.VisitsFit stem fun key s => s.set key data (-1)) :
    s.setAll stem data = counted (s.visitKeys stem fun key s => s.set key data (-1)) := by
  have hover : ¬ s.OverBudget := hfits 0 (List.length_pos_iff.2 hne)
  -- replacing gives nothing where storing gives the value
  have hmap : ∀ keys : List Bytes,
      keys.foldl (visitKey fun key s => (s.set key data (-1)).map fun _ => ()) ([], s) =
        ((keys.foldl (visitKey fun key s => s.set key data (-1)) ([], s)).1.map
            (Prod.map id fun _ => ()),
          (keys.foldl (visitKey fun key s => s.set key data (-1)) ([], s)).2) :=
    fun keys => foldl_visitKey_map (fun key s => s.set key data (-1)) (fun _ => ()) keys [] s
  have hvisits := onStem_eq_visitKeys hs hne (Plan.replace data.length (s.encode data))
    (fun key s => (s.set key data (-1)).map fun _ => ()) (fun s => ¬ s.OverBudget) ?_ ?_
  · rw [Plan.act_replace, visitKeys, hmap] at hvisits
    rw [setAll, if_neg hover, countOnStem, hvisits]
    simp [Except.map, counted, visitKeys]
  · intro s' key id item hground hfit hf hitem
    rw [set_of_live hfit hf hitem, hground.encode_eq]
  · intro n hn
    rw [hmap]
    exact hfits n hn

/-! ## Reading, counting and listing -/

theorem getAll_fst (hs : s.trie.Arranged) (hne : s.trie.search stem ≠ []) :
    (s.getAll stem).1 = .ok ((s.trie.search stem).filterMap (Plan.read.given s)) := by
  rw [getAll, ← Plan.act_read, onStem_fst _ hs (mt Trie.search_eq_nil_iff.2 hne),
    Plan.filterMap_gives]

theorem onStem_keep_fst (hs : s.trie.Arranged) (hne : s.trie.search stem ≠ []) :
    (s.onStem stem .keep).1 = .ok ((s.trie.search stem).filterMap (Plan.keep.given s)) := by
  rw [← Plan.act_keep, onStem_fst _ hs (mt Trie.search_eq_nil_iff.2 hne), Plan.filterMap_gives]

/-- A live member whose value can be read is read. -/
theorem given_read {m : Bytes × Item} (hlive : ¬ m.2.Lapsed s.now) {v : Value}
    (hv : expose m.2.value = .ok v) : Plan.read.given s m = some (m.1, v) := by
  simp [Plan.given, Plan.read, hlive, hv, Except.mapError, Except.toOption]

/-- **Where all values can be read, no member is dropped** by reading. -/
theorem map_fst_given_read (hlegible : ∀ m ∈ s.trie.search stem, m.2.value.Legible) :
    ((s.trie.search stem).filterMap (Plan.read.given s)).map Prod.fst =
      ((s.trie.search stem).filterMap (Plan.keep.given s)).map Prod.fst := by
  rw [List.map_filterMap, List.map_filterMap]
  refine List.filterMap_congr fun m hm => ?_
  obtain ⟨v, hv⟩ := hlegible m hm
  by_cases hlapsed : m.2.Lapsed s.now
  · simp [Plan.given, hlapsed]
  · rw [given_read hlapsed hv]
    simp [Plan.given, Plan.keep, hlapsed, Except.toOption]

theorem Holding.legible_of_search (h : s.Holding Value.Legible) (hs : s.trie.Arranged) :
    ∀ m ∈ s.trie.search stem, m.2.value.Legible :=
  fun _ hm => h.of_find? ((Trie.mem_search hs).1 hm).2

section Legible

variable (hs : s.trie.Arranged) (hlegible : ∀ m ∈ s.trie.search stem, m.2.value.Legible)

include hs hlegible

/-- A live member is among those that are read. -/
theorem exists_mem_of_getAll {pairs : List (Bytes × Value)} (h : (s.getAll stem).1 = .ok pairs)
    {m : Bytes × Item} (hm : m ∈ s.trie.search stem) (hlive : ¬ m.2.Lapsed s.now) :
    ∃ v, expose m.2.value = .ok v ∧ (m.1, v) ∈ pairs := by
  have hne : s.trie.search stem ≠ [] := List.ne_nil_of_mem hm
  obtain ⟨v, hv⟩ := hlegible m hm
  obtain rfl := Except.ok.inj ((getAll_fst hs hne).symm.trans h)
  exact ⟨v, hv, List.mem_filterMap.2 ⟨m, hm, given_read hlive hv⟩⟩

/-- The keys that are listed are those that are read. -/
theorem keys_fst_eq : (s.keys stem).1 = (s.getAll stem).1.map (List.map Prod.fst) := by
  by_cases hnil : s.trie.search stem = []
  · have hnodes := Trie.search_eq_nil_iff.1 hnil
    rw [keys, getAll, onStem_of_nil hnodes, onStem_of_nil hnodes]
    rfl
  · rw [keys, getAll_fst hs hnil]
    simp only [onStem_keep_fst hs hnil, Except.map, map_fst_given_read hlegible]

/-- As many are counted as are read. -/
theorem count_fst_eq : (s.count stem).1 = (s.getAll stem).1.map List.length := by
  by_cases hnil : s.trie.search stem = []
  · have hnodes := Trie.search_eq_nil_iff.1 hnil
    rw [count, countOnStem, getAll, onStem_of_nil hnodes, onStem_of_nil hnodes]
    rfl
  · have hlength := congrArg List.length (map_fst_given_read hlegible)
    rw [List.length_map, List.length_map] at hlength
    rw [count, countOnStem, getAll_fst hs hnil]
    simp only [onStem_keep_fst hs hnil, Except.map, hlength]

end Legible

/-! ## The law of members -/

/-- **Every operation on a stem is the fold of the operation on one key**,
in every store that a run leads to. Where there are members, it gives and
leaves what going through their keys does: lapsed items are destroyed,
every other key gets the operation on one key, and what succeeds is
counted, or collected. For replacing all values this holds as long as the
budget is kept on the way. Where there are none, it is not found and
changes nothing, unless the budget refuses it first. And after a run that
brought in nothing but data that survives compression, reading drops no
live member, so it meets the members that are listed and counted. -/
theorem stem_operation_is_fold {s : Store} (hs : s.Reachable) :
    (∀ stem, s.trie.search stem ≠ [] →
      s.delAll stem = counted (s.visitKeys stem fun key s => s.del key) ∧
      (∀ ttl, s.setTtlAll stem ttl = counted (s.visitKeys stem fun key s => s.setTtl key ttl)) ∧
      (∀ seconds, s.lockAll stem seconds =
        counted (s.visitKeys stem fun key s => s.lock key seconds)) ∧
      s.unlockAll stem = counted (s.visitKeys stem fun key s => s.unlock key) ∧
      (∀ delta, s.addAll stem delta = counted (s.visitKeys stem fun key s => s.add key delta)) ∧
      s.getAll stem = listed (s.visitKeys stem fun key s => s.get key) ∧
      (∀ data, s.VisitsFit stem (fun key s => s.set key data (-1)) →
        s.setAll stem data = counted (s.visitKeys stem fun key s => s.set key data (-1)))) ∧
    (∀ stem, s.trie.search stem = [] → ∀ op : StemOperation,
      (op.Stores ∧ s.OverBudget → op.run stem s = (.error .outOfMemory, s)) ∧
      (¬ (op.Stores ∧ s.OverBudget) → op.run stem s = (.error .notFound, s))) ∧
    (s.Reached Operation.Restores → ∀ stem,
      (∀ pairs, (s.getAll stem).1 = .ok pairs →
        ∀ m ∈ s.trie.search stem, ¬ m.2.Lapsed s.now →
          ∃ v, expose m.2.value = .ok v ∧ (m.1, v) ∈ pairs) ∧
      (s.keys stem).1 = (s.getAll stem).1.map (List.map Prod.fst) ∧
      (s.count stem).1 = (s.getAll stem).1.map List.length) := by
  have ht := hs.sound.arranged
  refine ⟨fun stem hne => ⟨?_, fun ttl => ?_, fun seconds => ?_, ?_, addAll_eq_counted ht hne, ?_,
    fun data => setAll_eq_counted ht hne⟩, fun stem hnil op => ⟨?_, ?_⟩, fun hreached stem => ?_⟩
  · have hfold := countOnStem_eq_counted ht hne Plan.delete
    rwa [Plan.act_delete] at hfold
  · have hfold := countOnStem_eq_counted ht hne (Plan.live ttl)
    rwa [Plan.act_live] at hfold
  · have hfold := countOnStem_eq_counted ht hne (Plan.lock seconds)
    rwa [Plan.act_lock] at hfold
  · exact countOnStem_eq_counted ht hne Plan.unlock
  · have hfold := onStem_eq_listed ht hne Plan.read
    rwa [Plan.act_read] at hfold
  · exact fun h => StemOperation.run_of_overBudget h.1 h.2 stem
  · exact fun h => StemOperation.run_of_no_members (fun hstores ho => h ⟨hstores, ho⟩) hnil
  · have hlegible : ∀ m ∈ s.trie.search stem, m.2.value.Legible :=
      hreached.legible.legible_of_search ht
    exact ⟨fun pairs hpairs m hm hlive => exists_mem_of_getAll ht hlegible hpairs hm hlive,
      keys_fst_eq ht hlegible, count_fst_eq ht hlegible⟩

/-- A store that keeps one item compressed and another locked. -/
def squeezed : Store :=
  (empty { compressAbove := 8 } 100).after
    [.onKey [97] (.set (List.replicate 32 7) 50), .onKey [97, 98] (.set [49] 50),
      .onKey [97, 98] (.lock 9)]

theorem squeezed_stem_is_fold :
    squeezed.Reachable ∧ squeezed.Reached Operation.Restores ∧ squeezed.trie.search [97] ≠ [] ∧
      squeezed.VisitsFit [97] (fun key s => s.set key [50] (-1)) ∧
      squeezed.setAll [97] [50] =
        counted (squeezed.visitKeys [97] fun key s => s.set key [50] (-1)) ∧
      (squeezed.count [97]).1 = (squeezed.getAll [97]).1.map List.length := by
  have hreached : squeezed.Reached Operation.Restores := .after (.empty _ 100) (by decide +kernel)
  have hne : squeezed.trie.search [97] ≠ [] := by decide +kernel
  have hfits : squeezed.VisitsFit [97] (fun key s => s.set key [50] (-1)) := by decide +kernel
  obtain ⟨hfold, -, hread⟩ := stem_operation_is_fold hreached.reachable
  obtain ⟨-, -, -, -, -, -, hset⟩ := hfold [97] hne
  exact ⟨hreached.reachable, hreached, hne, hfits, hset [50] hfits, (hread hreached [97]).2.2⟩

end Store

end PrefixCache

import PrefixCache.Proofs.Store.Keyed
/-!
# Members one by one

An operation on a stem gathers the nodes of its members first, and then
acts on one after the other. The same can be done from outside, key by
key: go through the keys that hold an item, destroy what has lapsed, and
do to every other key what the operation on one key does (`visitKeys`).
Both come to the same, result and store (`onStem_eq_visitKeys`), since a
node is the node of its key for as long as the walk takes, and a member is
as it was until its turn comes.
-/

namespace PrefixCache

namespace Store

variable {β : Type}

/-! ## Going through the keys -/

/-- Takes a key out, and counts its item as gone. -/
def destroyKey (s : Store) (key : Bytes) : Store :=
  let (old, trie) := s.trie.remove key
  { s with trie }.discard old

/-- Does an operation to a key, and keeps what it gave when it succeeds. A
lapsed item is destroyed instead. -/
def visitKey (op : Bytes → Store → Outcome β) :
    List (Bytes × β) × Store → Bytes → List (Bytes × β) × Store
  | (given, s), key =>
    if (s.trie.find? key).any fun item => item.Lapsed s.now then (given, s.destroyKey key)
    else
      match op key s with
      | (.ok b, s) => (given ++ [(key, b)], s)
      | (.error _, s) => (given, s)

/-- Does an operation to every key with a stem that holds an item now, in
the order of the search. -/
def visitKeys (s : Store) (stem : Bytes) (op : Bytes → Store → Outcome β) :
    List (Bytes × β) × Store :=
  ((s.trie.search stem).map Prod.fst).foldl (visitKey op) ([], s)

variable {s s₀ : Store} {key : Bytes} {id : NodeId} {item : Item} {p : Plan β}
variable {op : Bytes → Store → Outcome β}

theorem destroyKey_eq (hf : s.trie.findNode? key = some id) : s.destroyKey key = s.destroyAt id := by
  rw [destroyKey, destroyAt, Trie.remove, hf]

/-- **A visit is what happens to a member**, if the operation does to a
live item what the plan says. -/
theorem visitKey_eq (hf : s.trie.findNode? key = some id) (hget : s.trie.get? id = some item)
    (hop : s.liveItem? id = some item → op key s = p.act id item s)
    (given : List (Bytes × β)) :
    visitKey op (given, s) key =
      (given ++ (p.gives s (key, id)).toList, (s.onNode id p.act).2) := by
  have hfind : s.trie.find? key = some item := (Trie.find?_of_findNode? hf).trans hget
  by_cases hlapsed : item.Lapsed s.now
  · -- the visit destroys the item, and so does looking at its node
    have hnone : s.liveItem? id = none := by
      rw [liveItem?, hget]
      simp [hlapsed]
    have hlook : (s.liveAt id).2 = s.destroyAt id := by
      rw [liveAt, hget]
      simp [hlapsed]
    rw [visitKey, hfind, Option.any_some, if_pos (decide_eq_true hlapsed), destroyKey_eq hf,
      onNode_of_none hnone, hlook, Plan.gives, hnone]
    simp
  · have hlive : s.liveItem? id = some item := liveItem?_eq_some.2 ⟨hget, hlapsed⟩
    rw [visitKey, hfind, Option.any_some, if_neg (by simpa using hlapsed), hop hlive,
      onNode_of_some hlive, Plan.gives, hlive, Option.bind_some, Plan.act]
    cases (p s.limits s.now item).1 <;> simp [Except.toOption]

/-- **Visiting keys is acting on their nodes.** `fits` is what the
operation needs to follow the plan, and has to hold before each visit. -/
theorem foldl_visitKey {fits : Store → Prop}
    (hop : ∀ s key id item, s₀.SameGround s → fits s → s.trie.findNode? key = some id →
      s.liveItem? id = some item → op key s = p.act id item s)
    {ms : List (Bytes × NodeId)} (hnodup : (ms.map Prod.snd).Nodup)
    (given taken : List (Bytes × β)) (s : Store) (hs : s.trie.Arranged)
    (hground : s₀.SameGround s)
    (hms : ∀ m ∈ ms, s.trie.findNode? m.1 = some m.2 ∧ (s.trie.get? m.2).isSome)
    (hfits : ∀ n < ms.length, fits (((ms.map Prod.fst).take n).foldl (visitKey op) (given, s)).2) :
    (ms.map Prod.fst).foldl (visitKey op) (given, s) =
      (given ++ ms.filterMap (p.gives s), (ms.foldl (onMember p.act) (taken, s)).2) := by
  induction ms generalizing given taken s with
  | nil => simp
  | cons m ms ih =>
    obtain ⟨hout, hrest⟩ := List.nodup_cons.1 hnodup
    obtain ⟨hf, hsome⟩ := hms m (by simp)
    obtain ⟨item, hget⟩ := Option.isSome_iff_exists.1 hsome
    have hvisit := visitKey_eq hf hget (hop s m.1 m.2 item hground (hfits 0 (by simp)) hf) given
    have hnext := sameGround_onNode p s m.2
    -- the members to come are where they were, and hold what they held
    have hlater : ∀ m' ∈ ms, (s.onNode m.2 p.act).2.trie.findNode? m'.1 = some m'.2 ∧
        ((s.onNode m.2 p.act).2.trie.get? m'.2).isSome := by
      intro m' hm'
      obtain ⟨hf', hsome'⟩ := hms m' (List.mem_cons_of_mem m hm')
      have hne : m.2 ≠ m'.2 := fun e => hout (e ▸ List.mem_map_of_mem hm')
      rw [← Trie.findNode?_congr hs hnext.shape, get?_onNode, if_neg hne]
      exact ⟨hf', hsome'⟩
    rw [List.map_cons, List.foldl_cons, hvisit, List.foldl_cons, onMember_eq,
      ih hrest _ ((p.gives s m).toList ++ taken) _ (hs.congr hnext.shape) (hground.trans hnext)
        hlater]
    · rw [filterMap_gives_onNode p hout, List.append_assoc, List.filterMap_cons]
      cases p.gives s m <;> rfl
    · intro n hn
      have hstep := hfits (n + 1) (Nat.succ_lt_succ hn)
      rwa [List.map_cons, List.take_succ_cons, List.foldl_cons, hvisit] at hstep

/-- **An operation on a stem goes through its members one by one.** -/
theorem onStem_eq_visitKeys (hs : s.trie.Arranged) {stem : Bytes} (hne : s.trie.search stem ≠ [])
    (p : Plan β) (op : Bytes → Store → Outcome β) (fits : Store → Prop)
    (hop : ∀ s' key id item, s.SameGround s' → fits s' → s'.trie.findNode? key = some id →
      s'.liveItem? id = some item → op key s' = p.act id item s')
    (hfits : ∀ n < (s.trie.search stem).length,
      fits ((((s.trie.search stem).map Prod.fst).take n).foldl (visitKey op) ([], s)).2) :
    s.onStem stem p.act = (.ok (s.visitKeys stem op).1, (s.visitKeys stem op).2) := by
  have hkeys := Trie.map_fst_search s.trie stem
  have hlength : (s.trie.search stem).length = (s.trie.searchNodes stem).length := by
    rw [← List.length_map Prod.fst, hkeys, List.length_map]
  have hnodes : s.trie.searchNodes stem ≠ [] := mt Trie.search_eq_nil_iff.2 hne
  have hms : ∀ m ∈ s.trie.searchNodes stem,
      s.trie.findNode? m.1 = some m.2 ∧ (s.trie.get? m.2).isSome :=
    fun m hm => ((Trie.mem_searchNodes hs).1 hm).2
  rw [hkeys, hlength] at hfits
  have hvisits := foldl_visitKey hop (Trie.nodup_searchNodes hs stem) [] [] s hs (.refl s) hms hfits
  rw [visitKeys, hkeys, hvisits, List.nil_append]
  have hresult := onStem_fst p hs hnodes
  rw [onStem_of_ne_nil hnodes] at hresult ⊢
  exact Prod.ext hresult rfl

end Store

end PrefixCache

import PrefixCache.Proofs.Trie.Running
/-!
# Searching below a stem

A search lists the keys with a stem that hold something, each once and in
the order of a walk (`search_is_exact`). It can be carried out with one
buffer for all keys (`gather`): a stack holds the nodes to come, each with
the length of the key of its parent, and when the turn of a node comes the
buffer is cut back to that length. What carries that loop is `Nested`: the
keys of the parents on the stack are beginnings of each other, the one on
top the longest, and of the buffer.
-/

namespace PrefixCache

namespace Trie

variable {α : Type} {t : Trie α}

/-! ## What a walk meets -/

/-- The nodes that a visitor is shown, in the order in which it is. -/
def met (t : Trie α) (start : NodeId) : List NodeId :=
  (t.recurse start (fun id slot seen => (slot, seen ++ [id])) []).2

theorem met_eq (t : Trie α) (start : NodeId) :
    t.met start = (t.subtree start).map Step.id := by
  have hfold : ∀ (steps : List Step) (u : Trie α) (seen : List NodeId),
      (steps.foldl (visitOne fun id slot seen => (slot, seen ++ [id])) (u, seen)).2 =
        seen ++ steps.map Step.id := by
    intro steps
    induction steps with
    | nil => exact fun u seen => (List.append_nil seen).symm
    | cons step steps ih =>
      intro u seen
      rw [List.foldl_cons, List.map_cons, List.append_cons]
      exact ih _ _
  exact hfold (t.subtree start) t []

theorem map_snd_nodesBelow {key : Bytes} {id : NodeId} (h : t.findNode? key = some id) :
    (t.nodesBelow key).map Prod.snd = t.met id := by
  simp [nodesBelow, h, met_eq, Function.comp_def]

/-- **A node is met before its children**, and these in their order. -/
theorem met_of_lt (ht : t.Arranged) {id : NodeId} (h : id < t.nodeCount) :
    t.met id = id :: (t.childrenOf id).flatMap t.met := by
  obtain ⟨key, hkey⟩ := ht.exists_findNode? h
  rw [← map_snd_nodesBelow hkey, nodesBelow_of_findNode? ht hkey, List.map_cons, List.map_flatMap]
  refine congrArg _ (List.flatMap_congr fun c hc => ?_)
  exact map_snd_nodesBelow ((descend?_concat_eq_some ht).2 ⟨id, hkey, hc, rfl⟩)

theorem met_of_le {id : NodeId} (h : t.nodeCount ≤ id) : t.met id = [] := by
  rw [met_eq, subtree_of_le h, List.map_nil]

/-! ## Searching with one buffer -/

/-- Goes on with a search. The stack holds the nodes to come, the next on
top, each with the length of the key of its parent; the buffer holds the
key of the last node. -/
def gatherOn (t : Trie α) : (fuel : Nat) → (stack : List (NodeId × Nat)) → (buffer : Bytes) →
    (found : List (Bytes × NodeId)) → List (Bytes × NodeId)
  | 0, _, _, found => found
  | _ + 1, [], _, found => found
  | fuel + 1, (id, parentLength) :: stack, buffer, found =>
    let key := buffer.take parentLength ++ [t.labelOf id]
    t.gatherOn fuel ((t.childrenOf id).map (fun c => (c, key.length)) ++ stack) key
      (if (t.get? id).isSome then found ++ [(key, id)] else found)

/-- The keys with a stem that hold something, and their nodes, gathered
with one buffer. -/
def gather (t : Trie α) (stem : Bytes) : List (Bytes × NodeId) :=
  match t.findNode? stem with
  | none => []
  | some start =>
    t.gatherOn t.nodeCount ((t.childrenOf start).map fun c => (c, stem.length)) stem
      (if (t.get? start).isSome then [(stem, start)] else [])

/-- Nodes with the keys of their parents: every such key is a beginning of
the buffer, and of the keys before it. -/
structure Nested (buffer : Bytes) (ahead : List (Bytes × NodeId)) : Prop where
  front : ∀ m ∈ ahead, m.1 <+: buffer
  nested : ahead.Pairwise fun m later => later.1 <+: m.1

/-- The node on top has its turn, and its children take its place. -/
theorem Nested.next {buffer front : Bytes} {id : NodeId} {ahead : List (Bytes × NodeId)}
    (h : Nested buffer ((front, id) :: ahead)) (b : UInt8) (children : List NodeId) :
    Nested (front ++ [b]) (children.map (fun c => (front ++ [b], c)) ++ ahead) := by
  obtain ⟨hfirst, hlater⟩ := List.pairwise_cons.1 h.nested
  have hgrown : ∀ m ∈ ahead, m.1 <+: front ++ [b] := fun m hm =>
    (hfirst m hm).trans (List.prefix_append _ _)
  constructor
  · intro m hm
    rcases List.mem_append.1 hm with hchild | hm
    · obtain ⟨c, -, rfl⟩ := List.mem_map.1 hchild
      exact List.prefix_rfl
    · exact hgrown m hm
  · refine List.pairwise_append.2 ⟨?_, hlater, ?_⟩
    · exact List.pairwise_map.2 (List.pairwise_of_forall fun _ _ => List.prefix_rfl)
    · intro m hchild m' hm'
      obtain ⟨c, -, rfl⟩ := List.mem_map.1 hchild
      exact hgrown m' hm'

/-- **Going on gathers what is occupied at and below the nodes ahead**, key
by key, when the bound is large enough for all of it. -/
theorem gatherOn_eq (ht : t.Arranged) (found : List (Bytes × NodeId)) {fuel : Nat}
    {ahead : List (Bytes × NodeId)} {buffer : Bytes} (hnested : Nested buffer ahead)
    (hnodes : ∀ m ∈ ahead, t.findNode? (m.1 ++ [t.labelOf m.2]) = some m.2)
    (hfuel : (ahead.flatMap fun m => t.nodesBelow (m.1 ++ [t.labelOf m.2])).length ≤ fuel) :
    t.gatherOn fuel (ahead.map fun m => (m.2, m.1.length)) buffer found =
      found ++ (ahead.flatMap fun m => t.nodesBelow (m.1 ++ [t.labelOf m.2])).filter
        fun m => (t.get? m.2).isSome := by
  induction fuel generalizing ahead buffer found with
  | zero => simp [gatherOn, List.length_eq_zero_iff.1 (Nat.le_zero.1 hfuel)]
  | succ fuel ih =>
    cases ahead with
    | nil => simp [gatherOn]
    | cons m ahead =>
      obtain ⟨front, id⟩ := m
      have hid := hnodes (front, id) (by simp)
      have hcut : buffer.take front.length = front :=
        (List.prefix_iff_eq_take.1 (hnested.front (front, id) (by simp))).symm
      -- what lies below the node is the node and what lies below its children
      have hsplit : ((front, id) :: ahead).flatMap
            (fun m => t.nodesBelow (m.1 ++ [t.labelOf m.2])) =
          (front ++ [t.labelOf id], id) ::
            ((t.childrenOf id).map (fun c => (front ++ [t.labelOf id], c)) ++ ahead).flatMap
              fun m => t.nodesBelow (m.1 ++ [t.labelOf m.2]) := by
        rw [List.flatMap_cons, nodesBelow_of_findNode? ht hid, List.flatMap_append,
          List.flatMap_map, List.cons_append]
      have hnodes' : ∀ m ∈ (t.childrenOf id).map (fun c => (front ++ [t.labelOf id], c)) ++ ahead,
          t.findNode? (m.1 ++ [t.labelOf m.2]) = some m.2 := by
        intro m hm
        rcases List.mem_append.1 hm with hchild | hm
        · obtain ⟨c, hc, rfl⟩ := List.mem_map.1 hchild
          exact (descend?_concat_eq_some ht).2 ⟨id, hid, hc, rfl⟩
        · exact hnodes m (by simp [hm])
      rw [hsplit] at hfuel ⊢
      have hgo := ih (if (t.get? id).isSome then found ++ [(front ++ [t.labelOf id], id)] else found)
        (hnested.next (t.labelOf id) (t.childrenOf id)) hnodes' (by simpa using hfuel)
      simp only [List.map_cons, gatherOn, hcut]
      simp only [List.map_append, List.map_map, Function.comp_def] at hgo
      rw [hgo, List.filter_cons]
      split <;> simp

theorem length_nodesBelow_le (ht : t.Arranged) (stem : Bytes) :
    (t.nodesBelow stem).length ≤ t.nodeCount := by
  unfold nodesBelow
  cases hs : t.findNode? stem with
  | none => simp
  | some start =>
    have hlt := ht.findNode?_lt hs
    simpa [subtree_eq ht hlt] using length_below_le ht hlt []

/-- **One buffer is enough.** -/
theorem gather_eq (ht : t.Arranged) (stem : Bytes) : t.gather stem = t.searchNodes stem := by
  have hlength := length_nodesBelow_le ht stem
  rw [searchNodes_eq, gather]
  cases hs : t.findNode? stem with
  | none => simp [nodesBelow, hs]
  | some start =>
    rw [nodesBelow_of_findNode? ht hs] at hlength ⊢
    have hnested : Nested stem ((t.childrenOf start).map fun c => (stem, c)) := by
      constructor
      · intro m hm
        obtain ⟨c, -, rfl⟩ := List.mem_map.1 hm
        exact List.prefix_rfl
      · exact List.pairwise_map.2 (List.pairwise_of_forall fun _ _ => List.prefix_rfl)
    have hnodes : ∀ m ∈ (t.childrenOf start).map fun c => (stem, c),
        t.findNode? (m.1 ++ [t.labelOf m.2]) = some m.2 := by
      intro m hm
      obtain ⟨c, hc, rfl⟩ := List.mem_map.1 hm
      exact (descend?_concat_eq_some ht).2 ⟨start, hs, hc, rfl⟩
    have hfuel : (((t.childrenOf start).map fun c => (stem, c)).flatMap
        fun m => t.nodesBelow (m.1 ++ [t.labelOf m.2])).length ≤ t.nodeCount := by
      rw [List.flatMap_map]
      exact Nat.le_of_succ_le hlength
    have hgo := gatherOn_eq ht (if (t.get? start).isSome then [(stem, start)] else []) hnested
      hnodes hfuel
    simp only [List.map_map, Function.comp_def, List.flatMap_map] at hgo
    simp only [hgo, List.filter_cons]
    split <;> simp

/-! ## The law of searching -/

/-- Keys are found once each. -/
theorem nodup_map_fst_searchNodes (ht : t.Arranged) (stem : Bytes) :
    ((t.searchNodes stem).map Prod.fst).Nodup := by
  refine List.pairwise_map.2 ((List.pairwise_map.1 (nodup_searchNodes ht stem)).imp_of_mem ?_)
  intro m m' hm hm' hne heq
  have hf := ((mem_searchNodes ht).1 hm).2.1
  have hf' := ((mem_searchNodes ht).1 hm').2.1
  rw [heq] at hf
  exact hne (Option.some.inj (hf.symm.trans hf'))

/-- The nodes that a search finds, in the order in which a walk meets
them. -/
theorem map_snd_searchNodes {stem : Bytes} {start : NodeId} (h : t.findNode? stem = some start) :
    (t.searchNodes stem).map Prod.snd =
      (t.met start).filter fun id => (t.get? id).isSome := by
  rw [searchNodes_eq, ← map_snd_nodesBelow h, List.filter_map]
  rfl

/-- A search gives what is found under its keys. -/
theorem map_search (ht : t.Arranged) (stem : Bytes) :
    (t.search stem).map (fun m => (m.1, some m.2)) =
      (t.searchNodes stem).map fun m => (m.1, t.find? m.1) := by
  rw [search, List.map_filterMap, ← List.filterMap_eq_map]
  refine List.filterMap_congr fun m hm => ?_
  obtain ⟨-, hf, hsome⟩ := (mem_searchNodes ht).1 hm
  obtain ⟨x, hx⟩ := Option.isSome_iff_exists.1 hsome
  simp [hx, find?_of_findNode? hf]

/-- **A search is exact and in order.** Whatever has been done to a trie,
emptied nodes and all, a search finds the keys with the stem that hold
something, and their nodes, each key once; it finds them in the order in
which a walk from the node of the stem meets them, or nothing where the
stem has no node. A walk meets a node before its children, and these in
the order in which they were added, which is that of their indices. With
values in place of nodes it is the same list, and gathering the keys in
one buffer gives it too. -/
theorem search_is_exact (ops : List (TrieOperation α)) (stem : Bytes) :
    let t := (empty : Trie α).after ops
    (∀ key id, (key, id) ∈ t.searchNodes stem ↔
      stem <+: key ∧ (t.find? key).isSome ∧ t.findNode? key = some id) ∧
    ((t.searchNodes stem).map Prod.fst).Nodup ∧
    (match t.findNode? stem with
      | some start =>
        (t.searchNodes stem).map Prod.snd = (t.met start).filter fun id => (t.get? id).isSome
      | none => t.searchNodes stem = []) ∧
    (∀ id, t.met id =
      if id < t.nodeCount then id :: (t.childrenOf id).flatMap t.met else []) ∧
    (∀ id, (t.childrenOf id).Pairwise (· < ·)) ∧
    (t.search stem).map (fun m => (m.1, some m.2)) =
      (t.searchNodes stem).map (fun m => (m.1, t.find? m.1)) ∧
    t.gather stem = t.searchNodes stem := by
  intro t
  have h : t.Refines ((Register.empty : Register α).after ops) := refines_empty.after ops
  have ht := h.arranged
  refine ⟨fun key id => ?_, nodup_map_fst_searchNodes ht stem, ?_, fun id => ?_, h.ascending,
    map_search ht stem, gather_eq ht stem⟩
  · rw [mem_searchNodes ht]
    refine and_congr_right fun _ => ⟨?_, ?_⟩
    · rintro ⟨hf, hsome⟩
      exact ⟨(find?_of_findNode? hf).symm ▸ hsome, hf⟩
    · rintro ⟨hsome, hf⟩
      exact ⟨hf, find?_of_findNode? hf ▸ hsome⟩
  · cases hs : t.findNode? stem with
    | some start => exact map_snd_searchNodes hs
    | none => simp [searchNodes, hs]
  · split
    · next hid => exact met_of_lt ht hid
    · next hid => exact met_of_le (Nat.le_of_not_lt hid)

end Trie

end PrefixCache

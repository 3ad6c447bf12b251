import PrefixCache.Proofs.Trie.Growth
import PrefixCache.Proofs.Trie.Order
import PrefixCache.Proofs.Trie.Register
/-!
# Names of nodes

`Named` says of a trie and a row of names that the name of every node, the
key that leads to it, stands at its place. Storing under a key adds the
names of the missing nodes at the end of the row (`Named.reach`), and
children stand among their siblings in the order of the row
(`Ascending`). So the row alone tells which nodes a node has below it and
in which order a walk meets them (`Named.nodesBelow_eq`).
-/

namespace PrefixCache

namespace Trie

variable {α β : Type} {t : Trie α} {u : Trie β} {names : List Bytes}

/-! ## Siblings in order -/

/-- Siblings stand in the order in which they were added. -/
def Ascending (t : Trie α) : Prop := ∀ p, (t.childrenOf p).Pairwise (· < ·)

namespace Ascending

theorem congr (h : t.Ascending) (hshape : t.SameShape u) : u.Ascending :=
  fun p => hshape.children ▸ h p

theorem empty : (empty : Trie α).Ascending := fun p => by
  cases p <;> simp [childrenOf, Trie.empty]

theorem addChild (h : t.Ascending) (ht : t.Arranged) {p : NodeId} (hp : p < t.nodeCount)
    (b : UInt8) : (t.addChild p b).1.Ascending := by
  intro q
  rw [childrenOf_addChild hp]
  split
  · next hq =>
    subst hq
    refine List.pairwise_append.2 ⟨h p, List.pairwise_singleton _ _, ?_⟩
    intro c hc new hnew
    exact List.mem_singleton.1 hnew ▸ ht.child_lt hc
  · exact h q

theorem reach (h : t.Ascending) (ht : t.Arranged) {id : NodeId} (hid : id < t.nodeCount)
    (key : Bytes) : (t.reach id key).1.Ascending := by
  induction key generalizing t id with
  | nil => exact h
  | cons b rest ih =>
    simp only [Trie.reach]
    cases hc : t.child? id b with
    | some next => exact ih h ht (ht.child_lt ((child?_eq_some ht).1 hc).1)
    | none =>
      have hnew : (t.addChild id b).2 < (t.addChild id b).1.nodeCount := by
        simp [Trie.addChild, nodeCount]
      exact ih (h.addChild ht hid b) (ht.addChild hid hc) hnew

end Ascending

/-! ## The row of names -/

/-- At the place of every node stands the key that leads to it, and
nothing else stands in the row. -/
def Named (t : Trie α) (names : List Bytes) : Prop :=
  ∀ (id : NodeId) (key : Bytes), names[id]? = some key ↔ t.findNode? key = some id

theorem named_empty : (empty : Trie α).Named [[]] := by
  intro id key
  cases key with
  | nil =>
    have hroot : (empty : Trie α).findNode? [] = some root := rfl
    rw [hroot, Option.some.injEq]
    cases id <;> simp [root]
  | cons b rest =>
    have hnone : (empty : Trie α).findNode? (b :: rest) = none := rfl
    rw [hnone]
    cases id <;> simp

namespace Named

theorem congr (h : t.Named names) (ht : t.Arranged) (hshape : t.SameShape u) : u.Named names :=
  fun id key => (h id key).trans (by rw [findNode?_congr ht hshape])

theorem length_eq (h : t.Named names) (ht : t.Arranged) : names.length = t.nodeCount := by
  have hplace : ∀ id, id < names.length ↔ id < t.nodeCount := by
    intro id
    constructor
    · intro hid
      exact ht.findNode?_lt ((h id names[id]).1 (List.getElem?_eq_getElem hid))
    · intro hid
      obtain ⟨key, hkey⟩ := ht.exists_findNode? hid
      exact (List.getElem?_eq_some_iff.1 ((h id key).2 hkey)).1
  have := hplace names.length
  have := hplace t.nodeCount
  omega

theorem mem_iff (h : t.Named names) {key : Bytes} :
    key ∈ names ↔ ∃ id, t.findNode? key = some id := by
  rw [List.mem_iff_getElem?]
  exact exists_congr fun id => h id key

theorem nodup (h : t.Named names) : names.Nodup := by
  rw [List.nodup_iff_getElem?_ne_getElem?]
  intro i j hij hj heq
  have hkey := List.getElem?_eq_getElem hj
  have hi := (h i names[j]).1 (heq.trans hkey)
  exact Nat.ne_of_lt hij (Option.some.inj (hi.symm.trans ((h j names[j]).1 hkey)))

theorem idxOf_eq (h : t.Named names) {key : Bytes} {id : NodeId} (hf : t.findNode? key = some id) :
    names.idxOf key = id := by
  obtain ⟨hid, rfl⟩ := List.getElem?_eq_some_iff.1 ((h id key).2 hf)
  exact h.nodup.idxOf_getElem id hid

/-- **The place of a name is its node.** -/
theorem idxOf?_eq (h : t.Named names) (key : Bytes) : names.idxOf? key = t.findNode? key := by
  cases hf : t.findNode? key with
  | none =>
    rw [List.idxOf?_eq_none_iff]
    intro hmem
    obtain ⟨id, hid⟩ := h.mem_iff.1 hmem
    rw [hf] at hid
    cases hid
  | some id =>
    obtain ⟨hid, hkey⟩ := List.getElem?_eq_some_iff.1 ((h id key).2 hf)
    refine List.idxOf?_eq_some_iff.2 ⟨hid, hkey, fun j hj heq => ?_⟩
    have hsame : j = id := h.nodup.getElem_inj_iff.1 (heq.trans hkey.symm)
    exact Nat.ne_of_lt hj hsame

/-! ## Adding names -/

/-- A new child has the name that carries on the name of its parent. -/
theorem addChild (h : t.Named names) (ht : t.Arranged) {front : Bytes} {p : NodeId} {b : UInt8}
    (hf : t.findNode? front = some p) (hb : t.child? p b = none) :
    (t.addChild p b).1.Named (names ++ [front ++ [b]]) := by
  have hp := ht.findNode?_lt hf
  have hgrows := grows_addChild ht hp hb
  have hnew : (t.addChild p b).1.findNode? (front ++ [b]) = some t.nodeCount := by
    refine (descend?_concat_eq_some hgrows.arranged).2 ⟨p, hgrows.findNode? hf, ?_, ?_⟩
    · simp [childrenOf_addChild hp]
    · rw [labelOf_addChild, if_pos rfl]
  intro id key
  rw [List.getElem?_append, h.length_eq ht]
  split
  · next hid =>
    -- an old node keeps its name
    rw [h id key]
    refine ⟨hgrows.findNode?, fun hkey => ?_⟩
    obtain ⟨key', hkey'⟩ := ht.exists_findNode? hid
    rwa [hgrows.arranged.findNode?_inj hkey (hgrows.findNode? hkey')]
  · next hid =>
    constructor
    · intro hkey
      obtain ⟨hzero, hkey⟩ := List.getElem?_eq_some_iff.1 hkey
      have hid' : id = t.nodeCount :=
        Nat.le_antisymm (Nat.sub_eq_zero_iff_le.1 (Nat.lt_one_iff.1 hzero)) (Nat.le_of_not_lt hid)
      have hkey' : front ++ [b] = key := by simpa using hkey
      rw [← hkey', hid', hnew]
    · intro hkey
      have hlt := hgrows.arranged.findNode?_lt hkey
      rw [nodeCount_addChild] at hlt
      obtain rfl : id = t.nodeCount :=
        Nat.le_antisymm (Nat.le_of_lt_succ hlt) (Nat.le_of_not_lt hid)
      rw [hgrows.arranged.findNode?_inj hkey hnew]
      simp

/-- **Reaching the end of a path adds the names that are missing on it**,
shorter ones first. -/
theorem reach (h : t.Named names) (ht : t.Arranged) {front : Bytes} {id : NodeId}
    (hf : t.findNode? front = some id) (rest : Bytes) :
    (t.reach id rest).1.Named
      (names ++ (rest.inits.map (front ++ ·)).filter fun key => key ∉ names) := by
  induction rest generalizing t names front id with
  | nil =>
    have hmem : front ∈ names := h.mem_iff.2 ⟨id, hf⟩
    simpa [Trie.reach, hmem] using h
  | cons b rest ih =>
    have hmem : front ∈ names := h.mem_iff.2 ⟨id, hf⟩
    -- the names on the way are those on the way from one byte further on
    have hinits : (((b :: rest).inits.map (front ++ ·)).filter fun key => key ∉ names) =
        (rest.inits.map ((front ++ [b]) ++ ·)).filter fun key => key ∉ names := by
      simp [hmem, Function.comp_def]
    rw [hinits, Trie.reach]
    cases hc : t.child? id b with
    | some next =>
      refine ih h ht ?_
      rw [findNode?_append, hf]
      simp [descend?, hc]
    | none =>
      have hgrows := grows_addChild ht (ht.findNode?_lt hf) hc
      have hadd := h.addChild ht hf hc
      have hnext : (t.addChild id b).1.findNode? (front ++ [b]) = some (t.addChild id b).2 :=
        (hadd _ _).1 (by
          rw [show (t.addChild id b).2 = t.nodeCount from rfl, ← h.length_eq ht]
          simp)
      have hfresh : front ++ [b] ∉ names := by
        rw [h.mem_iff]
        rintro ⟨c, hcf⟩
        obtain ⟨p, hp, hmem', hl⟩ := (descend?_concat_eq_some ht).1 hcf
        obtain rfl := Option.some.inj (hf.symm.trans hp)
        rw [(child?_eq_some ht).2 ⟨hmem', hl⟩] at hc
        cases hc
      -- the first of them is the name just given, and the others are longer
      have hsplit : ((rest.inits.map ((front ++ [b]) ++ ·)).filter fun key => key ∉ names) =
          [front ++ [b]] ++ (rest.inits.map ((front ++ [b]) ++ ·)).filter fun key =>
            key ∉ names ++ [front ++ [b]] := by
        cases rest with
        | nil => simp [hfresh]
        | cons b' rest =>
          simp [hfresh, List.filter_map, Function.comp_def]
      rw [hsplit, ← List.append_assoc]
      exact ih hadd hgrows.arranged hnext

/-! ## Walking by names -/

/-- Names come in the order of their places. -/
theorem pairwise_idxOf (h : t.Named names) :
    names.Pairwise fun key key' => names.idxOf key < names.idxOf key' := by
  rw [List.pairwise_iff_getElem]
  intro i j hi hj hij
  rwa [h.nodup.idxOf_getElem i hi, h.nodup.idxOf_getElem j hj]

variable {γ : Type} {r : Register γ}

/-- **The names that carry a key on by one byte are those of the children**,
in the order of the children. -/
theorem onward_eq (h : t.Named r.names) (ht : t.Arranged) (hasc : t.Ascending) {key : Bytes}
    {id : NodeId} (hf : t.findNode? key = some id) :
    r.onward key = (t.childrenOf id).map fun c => key ++ [t.labelOf c] := by
  have hchild : ∀ {c}, c ∈ t.childrenOf id → t.findNode? (key ++ [t.labelOf c]) = some c :=
    fun hc => (descend?_concat_eq_some ht).2 ⟨id, hf, hc, rfl⟩
  -- both lists are sorted by place, so it is enough that they have the same members
  have hleft : (r.onward key).Pairwise fun a b => r.names.idxOf a < r.names.idxOf b :=
    h.pairwise_idxOf.sublist List.filter_sublist
  have hright : ((t.childrenOf id).map fun c => key ++ [t.labelOf c]).Pairwise fun a b =>
      r.names.idxOf a < r.names.idxOf b := by
    refine List.pairwise_map.2 ((hasc id).imp_of_mem fun hc hc' hlt => ?_)
    rwa [h.idxOf_eq (hchild hc), h.idxOf_eq (hchild hc')]
  have hnodup : ∀ {l : List Bytes}, l.Pairwise (fun a b => r.names.idxOf a < r.names.idxOf b) →
      l.Nodup := by
    intro l hl
    refine hl.imp ?_
    rintro a b hlt rfl
    exact Nat.lt_irrefl _ hlt
  refine List.Perm.eq_of_pairwise (fun a b _ _ hab hba => absurd hab (Nat.lt_asymm hba)) hleft
    hright ((List.perm_ext_iff_of_nodup (hnodup hleft) (hnodup hright)).2 fun name => ?_)
  simp only [Register.onward, List.mem_filter, decide_eq_true_eq, List.mem_map]
  constructor
  · rintro ⟨hname, hne, hfront⟩
    obtain ⟨c, hc⟩ := h.mem_iff.1 hname
    have hsplit := List.dropLast_append_getLast hne
    rw [hfront] at hsplit
    rw [← hsplit] at hc
    obtain ⟨p, hp, hmem, hl⟩ := (descend?_concat_eq_some ht).1 hc
    obtain rfl := Option.some.inj (hf.symm.trans hp)
    exact ⟨c, hmem, by rw [hl, hsplit]⟩
  · rintro ⟨c, hc, rfl⟩
    exact ⟨h.mem_iff.2 ⟨c, hchild hc⟩, by simp, by simp⟩

theorem nodesBelow_eq_outline (h : t.Named r.names) (ht : t.Arranged) (hasc : t.Ascending)
    {key : Bytes} {id : NodeId} (hf : t.findNode? key = some id) {depth : Nat}
    (hdepth : t.nodeCount - id ≤ depth) :
    t.nodesBelow key = (r.outline depth key).map fun name => (name, r.names.idxOf name) := by
  induction depth generalizing key id with
  | zero =>
    have hlt := ht.findNode?_lt hf
    exact absurd hlt (Nat.not_lt.2 (Nat.sub_eq_zero_iff_le.1 (Nat.le_zero.1 hdepth)))
  | succ depth ih =>
    rw [nodesBelow_of_findNode? ht hf, Register.outline, h.onward_eq ht hasc hf, List.map_cons,
      h.idxOf_eq hf, List.flatMap_map, List.map_flatMap]
    refine congrArg _ (List.flatMap_congr fun c hc => ?_)
    have hless : t.nodeCount - c < t.nodeCount - id :=
      Nat.sub_lt_sub_left (ht.findNode?_lt hf) (ht.child_gt hc)
    exact ih ((descend?_concat_eq_some ht).2 ⟨id, hf, hc, rfl⟩)
      (Nat.le_of_lt_succ (Nat.lt_of_lt_of_le hless hdepth))

/-- **A walk by names meets the nodes that a walk of the trie meets**, in
the same order. -/
theorem nodesBelow_eq (h : t.Named r.names) (ht : t.Arranged) (hasc : t.Ascending)
    (stem : Bytes) :
    t.nodesBelow stem = (r.walk stem).map fun name => (name, r.names.idxOf name) := by
  rw [Register.walk]
  split
  · next hmem =>
    obtain ⟨id, hf⟩ := h.mem_iff.1 hmem
    refine h.nodesBelow_eq_outline ht hasc hf ?_
    rw [h.length_eq ht]
    exact Nat.sub_le _ _
  · next hmem =>
    cases hf : t.findNode? stem with
    | none => simp [nodesBelow, hf]
    | some id => exact absurd (h.mem_iff.2 ⟨id, hf⟩) hmem

/-- The names of a walk are in the row, each at its node. -/
theorem findNode?_of_mem_walk (h : t.Named r.names) (ht : t.Arranged) (hasc : t.Ascending)
    {stem name : Bytes} (hname : name ∈ r.walk stem) :
    t.findNode? name = some (r.names.idxOf name) := by
  have hmem : (name, r.names.idxOf name) ∈ t.nodesBelow stem := by
    rw [h.nodesBelow_eq ht hasc]
    exact List.mem_map_of_mem hname
  exact ((mem_nodesBelow ht).1 hmem).2

end Named

end Trie

end PrefixCache

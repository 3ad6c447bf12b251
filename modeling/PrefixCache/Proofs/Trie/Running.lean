import PrefixCache.Proofs.Trie.Memory
import PrefixCache.Proofs.Trie.Naming
/-!
# Tries and registers

Whatever is done to a trie can be done to a register (`TrieOperation`),
and the answers are the same all along (`trie_refines_map`). What carries
the induction is `Refines`: the trie is arranged, its nodes are named by
the row of the register, and every key is bound to what is stored under
it. Lookups note where they found children, and an operation of its own
lets the nodes remember anything else; neither shows in an answer.
-/

namespace PrefixCache

/-! ## Operations -/

/-- Anything that is done to a trie. -/
inductive TrieOperation (α : Type) : Type 1 where
  | insert (key : Bytes) (value : α)
  | remove (key : Bytes)
  | find (key : Bytes)
  | findNode (key : Bytes)
  | get (id : NodeId)
  /-- Changes what an occupied node holds. -/
  | assign (id : NodeId) (value : α)
  | take (id : NodeId)
  | replace (id : NodeId) (value : α)
  | search (stem : Bytes)
  | searchNodes (stem : Bytes)
  | recurse {σ : Type} (start : NodeId) (visit : Trie.Visitor α σ) (state : σ)
  | clear
  /-- Lets the nodes remember any positions. -/
  | remember (memory : NodeId → Nat)

/-- What is answered. -/
inductive TrieAnswer (α : Type) : Type 1 where
  | done
  | held (x : Option α)
  | node (id : Option NodeId)
  | pairs (found : List (Bytes × α))
  | nodes (found : List (Bytes × NodeId))
  /-- What a visitor carries when it has seen everything. -/
  | carried {σ : Type} (state : σ)
  /-- There is no such node. -/
  | outside

namespace Trie

variable {α : Type}

/-- The trie after a key has been looked up. -/
def walked (t : Trie α) (key : Bytes) : Trie α := (t.seek root key).2

/-- Carries out an operation. -/
def perform (t : Trie α) : TrieOperation α → TrieAnswer α × Trie α
  | .insert key x => (.held ((t.walked key).insert key x).1, ((t.walked key).insert key x).2)
  | .remove key => (.held ((t.walked key).remove key).1, ((t.walked key).remove key).2)
  | .find key => (.held (t.find? key), t.walked key)
  | .findNode key => (.node (t.findNode? key), t.walked key)
  | .get id => (.held (t.get? id), t)
  | .assign id x => (.held (t.assign id x).1, (t.assign id x).2)
  | .take id => (.held (t.take id).1, (t.take id).2)
  | .replace id x =>
    match t.replace? id x with
    | some (old, t) => (.held old, t)
    | none => (.outside, t)
  | .search stem => (.pairs (t.search stem), t.walked stem)
  | .searchNodes stem => (.nodes (t.searchNodes stem), t.walked stem)
  | .recurse start visit state =>
    (.carried (t.recurse start visit state).2, (t.recurse start visit state).1)
  | .clear => (.done, .empty)
  | .remember memory => (.done, t.remembering memory)

/-- The trie after a run. -/
def after (t : Trie α) (ops : List (TrieOperation α)) : Trie α :=
  ops.foldl (fun t op => (t.perform op).2) t

/-- The answers in a run. -/
def answers (t : Trie α) : List (TrieOperation α) → List (TrieAnswer α)
  | [] => []
  | op :: ops => (t.perform op).1 :: (t.perform op).2.answers ops

end Trie

namespace Register

variable {α : Type}

/-- Does to a register what an operation does to a trie. -/
def perform (r : Register α) : TrieOperation α → TrieAnswer α × Register α
  | .insert key x => (.held (r.lookup key), (r.name key).bind key (some x))
  | .remove key => (.held (r.lookup key), r.bind key none)
  | .find key => (.held (r.lookup key), r)
  | .findNode key => (.node (r.placeOf? key), r)
  | .get id => (.held (r.lookupAt id), r)
  | .assign id x =>
    (.held (r.lookupAt id), if (r.lookupAt id).isSome then r.bindAt id (some x) else r)
  | .take id => (.held (r.lookupAt id), r.bindAt id none)
  | .replace id x =>
    if id < r.names.length then (.held (r.lookupAt id), r.bindAt id (some x)) else (.outside, r)
  | .search stem => (.pairs (r.search stem), r)
  | .searchNodes stem => (.nodes (r.searchNodes stem), r)
  | .recurse start visit state =>
    (.carried (r.recurse start visit state).2, (r.recurse start visit state).1)
  | .clear => (.done, empty)
  | .remember _ => (.done, r)

/-- The register after a run. -/
def after (r : Register α) (ops : List (TrieOperation α)) : Register α :=
  ops.foldl (fun r op => (r.perform op).2) r

/-- The answers in a run. -/
def answers (r : Register α) : List (TrieOperation α) → List (TrieAnswer α)
  | [] => []
  | op :: ops => (r.perform op).1 :: (r.perform op).2.answers ops

end Register

/-! ## Refinement -/

namespace Trie

variable {α : Type} {t u : Trie α} {r : Register α}

/-- The trie holds what the register binds, at the nodes that the register
names. -/
structure Refines (t : Trie α) (r : Register α) : Prop where
  arranged : t.Arranged
  ascending : t.Ascending
  tallied : t.Tallied
  named : t.Named r.names
  bindings (key : Bytes) : t.find? key = r.lookup key

theorem refines_empty : (empty : Trie α).Refines .empty where
  arranged := arranged_empty
  ascending := .empty
  tallied := tallied_empty
  named := named_empty
  bindings key := by
    rw [Register.lookup_empty, find?_empty]

namespace Refines

/-- What nodes remember is not in the register. -/
theorem congr (h : t.Refines r) (hsame : t.SameContent u) : u.Refines r where
  arranged := h.arranged.congr hsame.shape
  ascending := h.ascending.congr hsame.shape
  tallied := by
    rw [Tallied, hsame.live, ← occupants_congr hsame.shape.count hsame.slots.symm]
    exact h.tallied
  named := h.named.congr h.arranged hsame.shape
  bindings key := by
    rw [← h.bindings key, find?, find?, ← findNode?_congr h.arranged hsame.shape, hsame.slots]

theorem walked (h : t.Refines r) (key : Bytes) : (t.walked key).Refines r :=
  h.congr (sameContent_seek t root key)

theorem placeOf?_eq (h : t.Refines r) (key : Bytes) : r.placeOf? key = t.findNode? key :=
  h.named.idxOf?_eq key

/-- A node holds what its name is bound to. -/
theorem get?_eq (h : t.Refines r) (id : NodeId) : t.get? id = r.lookupAt id := by
  rw [Register.lookupAt]
  cases hname : r.names[id]? with
  | some key =>
    rw [Option.bind_some, ← h.bindings key, find?_of_findNode? ((h.named id key).1 hname)]
  | none =>
    refine get?_of_le (Nat.le_of_not_lt fun hlt => ?_)
    obtain ⟨key, hkey⟩ := h.arranged.exists_findNode? hlt
    rw [(h.named id key).2 hkey] at hname
    cases hname

/-- **As many nodes are occupied as keys are bound.** -/
theorem size_eq (h : t.Refines r) : t.size = r.bindings.keys.card := by
  have hkeys : (r.names.filter fun key => (r.lookup key).isSome).toFinset = r.bindings.keys := by
    ext key
    rw [List.mem_toFinset, List.mem_filter, Finmap.mem_keys, ← Finmap.lookup_isSome]
    refine ⟨And.right, fun hsome => ⟨?_, hsome⟩⟩
    obtain ⟨x, hx⟩ := Option.isSome_iff_exists.1 hsome
    obtain ⟨id, hid, -⟩ := find?_eq_some.1 ((h.bindings key).trans hx)
    exact h.named.mem_iff.2 ⟨id, hid⟩
  -- the row of names is the row of nodes, read by name
  have hrow : r.names.map r.lookup = (List.range t.nodeCount).map t.get? := by
    rw [← h.named.length_eq h.arranged]
    refine List.ext_getElem (by simp) fun id hid _ => ?_
    rw [List.length_map] at hid
    have hname : r.names[id]? = some r.names[id] := List.getElem?_eq_getElem hid
    rw [List.getElem_map, List.getElem_map, List.getElem_range, h.get?_eq,
      Register.lookupAt_eq hname]
  rw [size, h.tallied, occupants, ← hkeys,
    List.toFinset_card_of_nodup (h.named.nodup.filter _), List.length_filterMap_eq_countP,
    ← List.countP_eq_length_filter]
  have hcount := congrArg (List.countP Option.isSome) hrow
  rw [List.countP_map, List.countP_map] at hcount
  exact hcount.symm

/-! ### Changes -/

/-- **A swap at a node changes the binding of its name.** -/
theorem swap (h : t.Refines r) (id : NodeId) (slot : Option α) :
    (t.swap id slot).2.Refines (r.bindAt id slot) := by
  cases hname : r.names[id]? with
  | some key =>
    have hf := (h.named id key).1 hname
    rw [Register.bindAt_eq hname]
    exact {
      arranged := h.arranged.swap id slot
      ascending := h.ascending.congr (sameShape_swap t id slot).symm
      tallied := h.tallied.swap id slot
      named := by
        rw [Register.names_bind]
        exact h.named.congr h.arranged (sameShape_swap t id slot).symm
      bindings := fun key' => by
        rw [find?_swap h.arranged hf, Register.lookup_bind, h.bindings] }
  | none =>
    have hle : t.nodeCount ≤ id :=
      h.named.length_eq h.arranged ▸ List.getElem?_eq_none_iff.1 hname
    rwa [Register.bindAt, hname, swap_of_le hle]

/-- **Storing gives names to the path and binds the key.** -/
theorem insert (h : t.Refines r) (key : Bytes) (x : α) :
    (t.insert key x).1 = r.lookup key ∧
      (t.insert key x).2.Refines ((r.name key).bind key (some x)) := by
  have hroot : t.findNode? [] = some root := rfl
  obtain ⟨hgrows, hend⟩ := grows_reach h.arranged h.arranged.root_lt key
  have hnamed : (t.reach root key).1.Named (r.name key).names := by
    have := h.named.reach h.arranged hroot key
    simpa [Register.name] using this
  have hreached : (t.reach root key).1.Refines (r.name key) := {
    arranged := hgrows.arranged
    ascending := h.ascending.reach h.arranged h.arranged.root_lt key
    tallied := hgrows.tallied h.tallied
    named := hnamed
    bindings := fun key' => by rw [hgrows.find? h.arranged, h.bindings, Register.lookup_name] }
  have hplace : (r.name key).names[(t.reach root key).2]? = some key := (hnamed _ key).2 hend
  constructor
  · rw [Trie.insert, swap_fst, hreached.get?_eq, Register.lookupAt_eq hplace, Register.lookup_name]
  · rw [← Register.bindAt_eq hplace]
    exact hreached.swap _ _

theorem remove (h : t.Refines r) (key : Bytes) :
    (t.remove key).1 = r.lookup key ∧ (t.remove key).2.Refines (r.bind key none) := by
  rw [Trie.remove]
  cases hf : t.findNode? key with
  | some id =>
    have hname := (h.named id key).2 hf
    refine ⟨swap_fst.trans ((h.get?_eq id).trans (Register.lookupAt_eq hname)), ?_⟩
    rw [← Register.bindAt_eq hname]
    exact h.swap id none
  | none =>
    -- a key without a node is not bound, so dropping its binding changes nothing
    have hnone : r.lookup key = none := by rw [← h.bindings, find?, hf, Option.bind_none]
    refine ⟨hnone.symm, ⟨h.arranged, h.ascending, h.tallied, ?_, fun key' => ?_⟩⟩
    · rw [Register.names_bind]
      exact h.named
    · rw [Register.lookup_bind, h.bindings]
      split
      · next heq => rw [← heq, hnone]
      · rfl

theorem assign (h : t.Refines r) (id : NodeId) (x : α) :
    (t.assign id x).1 = r.lookupAt id ∧ (t.assign id x).2.Refines
      (if (r.lookupAt id).isSome then r.bindAt id (some x) else r) := by
  rw [Trie.assign, ← h.get?_eq]
  cases hget : t.get? id with
  | some old => exact ⟨swap_fst.trans hget, h.swap id (some x)⟩
  | none => exact ⟨rfl, h⟩

/-! ### Walks -/

/-- What a walk by names meets is stored under the names. -/
theorem get?_of_mem_walk (h : t.Refines r) {stem name : Bytes} (hname : name ∈ r.walk stem) :
    t.get? (r.names.idxOf name) = r.lookup name := by
  have hf := h.named.findNode?_of_mem_walk h.arranged h.ascending hname
  rw [← find?_of_findNode? hf, h.bindings]

theorem searchNodes_eq (h : t.Refines r) (stem : Bytes) :
    t.searchNodes stem = r.searchNodes stem := by
  rw [Trie.searchNodes_eq, h.named.nodesBelow_eq h.arranged h.ascending, Register.searchNodes,
    List.filter_map]
  refine congrArg _ (List.filter_congr fun name hname => ?_)
  rw [Function.comp_apply, h.get?_of_mem_walk hname]

theorem search_eq (h : t.Refines r) (stem : Bytes) : t.search stem = r.search stem := by
  rw [Trie.search, h.searchNodes_eq, Register.searchNodes, Register.search, List.filterMap_map,
    List.filterMap_filter]
  refine List.filterMap_congr fun name hname => ?_
  simp only [Function.comp_apply, h.get?_of_mem_walk hname]
  cases r.lookup name <;> rfl

/-- A walk of the trie and one of the names that meet the same nodes show
a visitor the same. -/
theorem foldl_visitOne (h : t.Refines r) {σ : Type} (visit : Visitor α σ) (state : σ)
    {steps : List Step} {names : List Bytes} (hnames : ∀ name ∈ names, name ∈ r.names)
    (hids : steps.map Step.id = names.map fun name => r.names.idxOf name) :
    (steps.foldl (visitOne visit) (t, state)).2 =
        (names.foldl (Register.visitOne visit) (r, state)).2 ∧
      (steps.foldl (visitOne visit) (t, state)).1.Refines
        (names.foldl (Register.visitOne visit) (r, state)).1 := by
  induction steps generalizing t r names state with
  | nil =>
    obtain rfl : names = [] := by simpa using hids.symm
    exact ⟨rfl, h⟩
  | cons step steps ih =>
    cases names with
    | nil => simp at hids
    | cons name names =>
      obtain ⟨hid, hrest⟩ := List.cons.inj hids
      have hplace : r.names[step.id]? = some name :=
        hid ▸ List.getElem?_idxOf (hnames name (by simp))
      have hslot : t.get? step.id = r.lookup name := by
        rw [h.get?_eq, Register.lookupAt_eq hplace]
      rw [List.foldl_cons, List.foldl_cons]
      simp only [visitOne, Register.visitOne, hslot, ← hid]
      refine ih (t := (t.swap step.id _).2) (r := r.bind name _) ?_ _ ?_ ?_
      · rw [← Register.bindAt_eq hplace]
        exact h.swap step.id _
      · intro later hlater
        rw [Register.names_bind]
        exact hnames later (by simp [hlater])
      · rw [Register.names_bind]
        exact hrest

/-- **A visitor cannot tell a walk of the trie from one of the names.** -/
theorem recurse (h : t.Refines r) {σ : Type} (start : NodeId) (visit : Visitor α σ) (state : σ) :
    (t.recurse start visit state).2 = (r.recurse start visit state).2 ∧
      (t.recurse start visit state).1.Refines (r.recurse start visit state).1 := by
  rw [Trie.recurse, Register.recurse]
  cases hname : r.names[start]? with
  | none =>
    have hle : t.nodeCount ≤ start :=
      h.named.length_eq h.arranged ▸ List.getElem?_eq_none_iff.1 hname
    rw [subtree_of_le hle]
    exact ⟨rfl, h⟩
  | some stem =>
    have hbelow := h.named.nodesBelow_eq h.arranged h.ascending stem
    refine h.foldl_visitOne visit state (fun name hmem => ?_) ?_
    · exact h.named.mem_iff.2 ⟨_, h.named.findNode?_of_mem_walk h.arranged h.ascending hmem⟩
    · have := congrArg (List.map Prod.snd) hbelow
      simpa [nodesBelow, (h.named start stem).1 hname, Function.comp_def] using this

/-! ### Runs -/

/-- **An operation answers the same and keeps the refinement.** -/
theorem perform (h : t.Refines r) (op : TrieOperation α) :
    (t.perform op).1 = (r.perform op).1 ∧ (t.perform op).2.Refines (r.perform op).2 := by
  cases op with
  | insert key x =>
    obtain ⟨hold, hnext⟩ := (h.walked key).insert key x
    exact ⟨congrArg TrieAnswer.held hold, hnext⟩
  | remove key =>
    obtain ⟨hold, hnext⟩ := (h.walked key).remove key
    exact ⟨congrArg TrieAnswer.held hold, hnext⟩
  | find key => exact ⟨congrArg TrieAnswer.held (h.bindings key), h.walked key⟩
  | findNode key => exact ⟨congrArg TrieAnswer.node (h.placeOf?_eq key).symm, h.walked key⟩
  | get id => exact ⟨congrArg TrieAnswer.held (h.get?_eq id), h⟩
  | assign id x =>
    obtain ⟨hold, hnext⟩ := h.assign id x
    exact ⟨congrArg TrieAnswer.held hold, hnext⟩
  | take id => exact ⟨congrArg TrieAnswer.held (swap_fst.trans (h.get?_eq id)), h.swap id none⟩
  | replace id x =>
    simp only [Trie.perform, Register.perform, replace?, h.named.length_eq h.arranged]
    by_cases hid : id < t.nodeCount
    · simp only [if_pos hid]
      exact ⟨congrArg TrieAnswer.held (swap_fst.trans (h.get?_eq id)), h.swap id (some x)⟩
    · simp only [if_neg hid]
      exact ⟨trivial, h⟩
  | search stem => exact ⟨congrArg TrieAnswer.pairs (h.search_eq stem), h.walked stem⟩
  | searchNodes stem => exact ⟨congrArg TrieAnswer.nodes (h.searchNodes_eq stem), h.walked stem⟩
  | recurse start visit state =>
    obtain ⟨hstate, hnext⟩ := h.recurse start visit state
    exact ⟨congrArg TrieAnswer.carried hstate, hnext⟩
  | clear => exact ⟨rfl, refines_empty⟩
  | remember memory => exact ⟨rfl, h.congr (sameContent_remembering t memory)⟩

theorem after (h : t.Refines r) (ops : List (TrieOperation α)) :
    (t.after ops).Refines (r.after ops) := by
  induction ops generalizing t r with
  | nil => exact h
  | cons op ops ih => exact ih (h.perform op).2

theorem answers_eq (h : t.Refines r) (ops : List (TrieOperation α)) :
    t.answers ops = r.answers ops := by
  induction ops generalizing t r with
  | nil => rfl
  | cons op ops ih =>
    obtain ⟨hanswer, hnext⟩ := h.perform op
    rw [Trie.answers, Register.answers, hanswer, ih hnext]

end Refines

/-- **A trie is a finite map.** Whatever is done to it, every answer is the
answer of a register. At any time every key holds what it is bound to, as
many keys hold something as are bound, and a node stands for the one key
that is the name at its place. What nodes remember does not matter: with
any positions remembered, past the last child too, every answer is the
same, a lookup that notes its way ends where one does that does not, and
the child that is found under a label is the one that has it. -/
theorem trie_refines_map (ops : List (TrieOperation α)) :
    let t := (empty : Trie α).after ops
    let r := (Register.empty : Register α).after ops
    (empty : Trie α).answers ops = (Register.empty : Register α).answers ops ∧
    (∀ key, t.find? key = r.bindings.lookup key) ∧
    t.size = r.bindings.keys.card ∧
    (∀ id key, t.findNode? key = some id ↔ r.names[id]? = some key) ∧
    (∀ memory op, ((t.remembering memory).perform op).1 = (t.perform op).1) ∧
    (∀ memory key, ((t.remembering memory).seek root key).1 = t.findNode? key) ∧
    (∀ memory p b c, ((t.remembering memory).seekChild p b).1 = some c ↔
      c ∈ t.childrenOf p ∧ t.labelOf c = b) := by
  intro t r
  have h : t.Refines r := refines_empty.after ops
  refine ⟨refines_empty.answers_eq ops, h.bindings, h.size_eq, fun id key => (h.named id key).symm,
    fun memory op => ?_, fun memory key => ?_, fun memory p b c => ?_⟩
  · have hother := h.congr (sameContent_remembering t memory)
    rw [(hother.perform op).1, (h.perform op).1]
  · have hsame := (sameContent_remembering t memory).shape
    rw [seek_fst (h.arranged.congr hsame)]
    exact (findNode?_congr h.arranged hsame key).symm
  · exact seekChild_remembering h.arranged memory

end Trie

end PrefixCache

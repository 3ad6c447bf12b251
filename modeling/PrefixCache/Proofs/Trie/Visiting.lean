import PrefixCache.Proofs.Trie.Search
import Mathlib.Logic.Relation
/-!
# Visiting slots

A visitor is shown the slots of a node and of all that lie below it. It
can be shown them by a loop with a stack of the nodes to come, which knows
neither where it leads nor how long it takes, and which corrects the count
of occupied slots as it goes (`turn?`). `Walks` says that such a loop comes
to its end. It does, whatever the visitor is, and what it leaves is what
`recurse` gives (`walks_recurse`). So a walk is complete and exact
(`walk_is_complete_and_exact`): it shows every slot at or below its start
once, and nothing changes but what the visitor leaves in these slots.
-/

namespace PrefixCache

namespace Trie

variable {α σ : Type} {t u : Trie α} {visit : Visitor α σ}

/-! ## The loop -/

/-- What a visitor found in the slot of a node, and what it left there. -/
structure Encounter (α : Type) where
  id : NodeId
  found : Option α
  left : Option α

/-- A walk under way: the nodes to come, the next on top, the trie as it
is by now, and what the visitor carries. -/
structure Walking (α σ : Type) where
  stack : List NodeId
  trie : Trie α
  state : σ

/-- A walk before its first turn. Where there is no node, none is to come. -/
def setOut (t : Trie α) (start : NodeId) (state : σ) : Walking α σ :=
  { stack := if start < t.nodeCount then [start] else [], trie := t, state }

/-- The count of occupied slots when one of them has been visited. A count
of none cannot go down. -/
def recount? (live : Nat) : (found left : Option α) → Option Nat
  | some _, none => if live = 0 then none else some (live - 1)
  | none, some _ => some (live + 1)
  | _, _ => some live

/-- One turn: the node on top is visited, and its children take its place
on the stack. No turn is left when the stack is empty; a turn fails where
there is no such node, and where the count cannot be corrected. -/
def turn? (visit : Visitor α σ) (w : Walking α σ) : Option (Encounter α × Walking α σ) :=
  match w.stack with
  | [] => none
  | id :: stack =>
    match w.trie.nodes[id]? with
    | none => none
    | some node =>
      let (left, state) := visit id node.slot w.state
      (recount? w.trie.live node.slot left).map fun live =>
        ({ id, found := node.slot, left },
          { stack := node.children ++ stack
            trie := { nodes := w.trie.nodes.modify id fun node => { node with slot := left }, live }
            state })

/-- Turn after turn until the stack is empty, with what the visitor
encounters on the way, and the trie and the state in the end. -/
inductive Walks (visit : Visitor α σ) : Walking α σ → List (Encounter α) → Trie α × σ → Prop
  | ended {t : Trie α} {state : σ} : Walks visit { stack := [], trie := t, state } [] (t, state)
  | turn {w next : Walking α σ} {e : Encounter α} {es : List (Encounter α)} {result : Trie α × σ} :
      turn? visit w = some (e, next) → Walks visit next es result → Walks visit w (e :: es) result

/-! ## One turn -/

theorem recount?_eq {live : Nat} {found left : Option α} (h : weight found ≤ live) :
    recount? live found left = some (live + weight left - weight found) := by
  cases found <;> cases left <;> simp only [recount?, weight] at h ⊢
  · rfl
  · rfl
  · have : live ≠ 0 := by
      rintro rfl
      simp at h
    simp [this]
  · simp

/-- An occupied slot is counted. -/
theorem Tallied.weight_le (h : t.Tallied) (id : NodeId) : weight (t.get? id) ≤ t.live := by
  rw [Tallied] at h
  cases hget : t.get? id with
  | none => exact Nat.zero_le _
  | some x => exact h ▸ List.length_pos_of_mem (mem_occupants.2 ⟨id, hget⟩)

/-- **A turn is a swap** at the node on top, as long as the count is
right. -/
theorem turn?_eq (visit : Visitor α σ) (hu : u.Tallied) {id : NodeId} (hid : id < u.nodeCount)
    (stack : List NodeId) (state : σ) :
    turn? visit { stack := id :: stack, trie := u, state } =
      some ({ id, found := u.get? id, left := (visit id (u.get? id) state).1 },
        { stack := u.childrenOf id ++ stack
          trie := (u.swap id (visit id (u.get? id) state).1).2
          state := (visit id (u.get? id) state).2 }) := by
  obtain ⟨node, hnode⟩ : ∃ node, u.nodes[id]? = some node := ⟨_, Array.getElem?_eq_getElem hid⟩
  have hslot : u.get? id = node.slot := by simp [get?, hnode]
  have hchildren : u.childrenOf id = node.children := by simp [childrenOf, hnode]
  have hweight : weight node.slot ≤ u.live := hslot ▸ hu.weight_le id
  simp only [turn?, hnode, hslot, hchildren, recount?_eq hweight, Option.map_some, swap, if_pos hid]

/-! ## The walk in a row -/

/-- What a visitor encounters at nodes in a row. -/
def encounters (visit : Visitor α σ) : List Step → Trie α × σ → List (Encounter α)
  | [], _ => []
  | step :: steps, (t, state) =>
    { id := step.id, found := t.get? step.id, left := (visit step.id (t.get? step.id) state).1 } ::
      encounters visit steps (visitOne visit (t, state) step)

theorem map_id_encounters (visit : Visitor α σ) (steps : List Step) (now : Trie α × σ) :
    (encounters visit steps now).map Encounter.id = steps.map Step.id := by
  induction steps generalizing now with
  | nil => rfl
  | cons step steps ih => exact congrArg (step.id :: ·) (ih _)

/-- **The loop comes to its end**, and visits in a row what lies at or
below the nodes on its stack. What the visitor does to the slots leaves the
shape alone, so where the loop leads is settled before it begins. -/
theorem walks_foldl (visit : Visitor α σ) (ht : t.Arranged) {ahead : List Step}
    (hids : ∀ step ∈ ahead, step.id < t.nodeCount) (u : Trie α) (hshape : t.SameShape u)
    (hu : u.Tallied) (state : σ) :
    Walks visit { stack := ahead.map Step.id, trie := u, state }
      (encounters visit (ahead.flatMap t.below) (u, state))
      ((ahead.flatMap t.below).foldl (visitOne visit) (u, state)) := by
  revert u state
  refine ht.along ?_ (fun step ahead hid ih => ?_) hids
  · exact fun _ _ _ _ => .ended
  · intro u hshape hu state
    -- the trie may hold something else by now, but its children are the same
    have hstack : u.childrenOf step.id ++ ahead.map Step.id =
        (t.childSteps step ++ ahead).map Step.id := by
      simp [childSteps, hshape.children, Function.comp_def]
    have hturn := turn?_eq visit hu (hshape.count ▸ hid) (ahead.map Step.id) state
    rw [hstack] at hturn
    rw [flatMap_below_cons ht hid]
    exact .turn hturn (ih _ (hshape.trans (sameShape_swap _ _ _).symm) (hu.swap _ _) _)

/-- **The loop gives what `recurse` gives.** -/
theorem walks_recurse (visit : Visitor α σ) (ht : t.Arranged) (hl : t.Tallied) (start : NodeId)
    (state : σ) :
    Walks visit (t.setOut start state) (encounters visit (t.subtree start) (t, state))
      (t.recurse start visit state) := by
  by_cases hstart : start < t.nodeCount
  · have hids : ∀ step ∈ [(⟨start, []⟩ : Step)], step.id < t.nodeCount := by simpa using hstart
    have hwalks := walks_foldl visit ht hids t (.refl t) hl state
    rw [List.flatMap_singleton, ← subtree_eq ht hstart] at hwalks
    rw [setOut, if_pos hstart]
    exact hwalks
  · rw [recurse, subtree_of_le (Nat.le_of_not_lt hstart), setOut, if_neg hstart]
    exact .ended

/-! ## What a walk leaves -/

/-- A trie without its slots and the count of them: the labels, the
children, and what the nodes remember. -/
def skeleton (t : Trie α) : Array (UInt8 × List NodeId × Nat) :=
  t.nodes.map fun node => (node.label, node.children, node.remembered)

theorem skeleton_swap (t : Trie α) (id : NodeId) (slot : Option α) :
    (t.swap id slot).2.skeleton = t.skeleton := by
  by_cases hid : id < t.nodeCount
  · refine Array.ext_getElem? fun j => ?_
    rw [skeleton, skeleton, Array.getElem?_map, Array.getElem?_map, nodes_swap hid]
    split
    · cases t.nodes[j]? <;> rfl
    · rfl
  · rw [swap_of_le (Nat.le_of_not_lt hid)]

theorem skeleton_foldl_visitOne (steps : List Step) (t : Trie α) (state : σ) :
    (steps.foldl (visitOne visit) (t, state)).1.skeleton = t.skeleton := by
  induction steps generalizing t state with
  | nil => rfl
  | cons step steps ih => exact (ih _ _).trans (skeleton_swap t step.id _)

theorem get?_foldl_visitOne_of_not_mem {steps : List Step} {id : NodeId}
    (h : id ∉ steps.map Step.id) (t : Trie α) (state : σ) :
    (steps.foldl (visitOne visit) (t, state)).1.get? id = t.get? id := by
  induction steps generalizing t state with
  | nil => rfl
  | cons step steps ih =>
    rw [List.map_cons, List.mem_cons, not_or] at h
    exact (ih h.2 _ _).trans (get?_swap_ne (Ne.symm h.1))

/-- **At nodes that are all different, a visitor finds what was there
before, and what it leaves stays.** -/
theorem encounters_foldl_visitOne {steps : List Step} (hnodup : (steps.map Step.id).Nodup)
    (t : Trie α) (state : σ) (hids : ∀ step ∈ steps, step.id < t.nodeCount) :
    ∀ e ∈ encounters visit steps (t, state), e.found = t.get? e.id ∧
      (steps.foldl (visitOne visit) (t, state)).1.get? e.id = e.left := by
  induction steps generalizing t state with
  | nil => exact fun e he => absurd he (List.not_mem_nil)
  | cons step steps ih =>
    obtain ⟨hout, hrest⟩ := List.nodup_cons.1 hnodup
    intro e he
    rcases List.mem_cons.1 he with rfl | he
    · refine ⟨rfl, (get?_foldl_visitOne_of_not_mem hout _ _).trans ?_⟩
      exact get?_swap_self (hids step (by simp))
    · obtain ⟨hfound, hleft⟩ := ih hrest _ _
        (fun later hlater => nodeCount_swap.symm ▸ hids later (by simp [hlater])) e he
      -- a later node is another one, so this visit does not show there
      have hne : step.id ≠ e.id := by
        rintro heq
        have hmem := List.mem_map_of_mem (f := Encounter.id) he
        rw [map_id_encounters] at hmem
        exact hout (heq ▸ hmem)
      exact ⟨hfound.trans (get?_swap_ne hne), hleft⟩

/-! ## At or below -/

/-- A node is reached from another by going from parents to children, any
number of times. -/
def AtOrBelow (t : Trie α) (start id : NodeId) : Prop :=
  start < t.nodeCount ∧ Relation.ReflTransGen (fun p c => c ∈ t.childrenOf p) start id

theorem reflTransGen_iff_descend? (ht : t.Arranged) {start id : NodeId} :
    Relation.ReflTransGen (fun p c => c ∈ t.childrenOf p) start id ↔
      ∃ key, t.descend? start key = some id := by
  constructor
  · intro h
    induction h with
    | refl => exact ⟨[], rfl⟩
    | tail _ hc ih =>
      obtain ⟨key, hkey⟩ := ih
      exact ⟨_, (descend?_concat_eq_some ht).2 ⟨_, hkey, hc, rfl⟩⟩
  · rintro ⟨key, hkey⟩
    induction key generalizing start with
    | nil => exact Option.some.inj hkey ▸ .refl
    | cons b rest ih =>
      obtain ⟨c, hc, -, hrest⟩ := (descend?_cons_eq_some ht).1 hkey
      exact (ih hrest).head hc

theorem nodup_map_id_subtree (ht : t.Arranged) (start : NodeId) :
    ((t.subtree start).map Step.id).Nodup := by
  by_cases hstart : start < t.nodeCount
  · exact nodup_subtree ht hstart
  · simp [subtree_of_le (Nat.le_of_not_lt hstart)]

/-- **A walk meets what lies at or below its start.** -/
theorem mem_map_id_subtree (ht : t.Arranged) {start id : NodeId} :
    id ∈ (t.subtree start).map Step.id ↔ t.AtOrBelow start id := by
  by_cases hstart : start < t.nodeCount
  · rw [AtOrBelow, and_iff_right hstart, reflTransGen_iff_descend? ht, List.mem_map]
    constructor
    · rintro ⟨x, hx, rfl⟩
      exact ⟨_, (mem_subtree ht hstart).1 hx⟩
    · rintro ⟨key, hkey⟩
      exact ⟨⟨id, key.reverse⟩, (mem_subtree ht hstart).2 (by simpa using hkey), rfl⟩
  · simp [AtOrBelow, hstart, subtree_of_le (Nat.le_of_not_lt hstart)]

theorem AtOrBelow.lt_nodeCount (ht : t.Arranged) {start id : NodeId} (h : t.AtOrBelow start id) :
    id < t.nodeCount := by
  obtain ⟨key, hkey⟩ := (reflTransGen_iff_descend? ht).1 h.2
  exact ht.descend?_lt h.1 hkey

/-! ## The law of visiting -/

/-- **A walk is complete and exact.** Whatever has been done to a trie,
from any start and with any visitor, whatever it leaves in the slots and
carries along, the loop comes to its end without failing, and gives what
`recurse` gives. It visits every node at or below the start once and no
other node: a node before its children, and these in the order in which
they were added, which is that of their indices. The visitor finds in every
slot what was there before the walk, and what it leaves stays; other slots
keep what they hold, and nothing else about the nodes changes. The count is
that of the occupied slots of the whole trie again. Where there is no node
to start from, nothing happens. -/
theorem walk_is_complete_and_exact (ops : List (TrieOperation α)) (start : NodeId)
    (visit : Visitor α σ) (state : σ) :
    let t := (empty : Trie α).after ops
    let t' := (t.recurse start visit state).1
    let state' := (t.recurse start visit state).2
    ∃ seen : List (Encounter α),
      Walks visit (t.setOut start state) seen (t', state') ∧
      (seen.map Encounter.id).Nodup ∧
      (∀ id, id ∈ seen.map Encounter.id ↔ t.AtOrBelow start id) ∧
      seen.map Encounter.id = t.met start ∧
      (∀ id, t.met id =
        if id < t.nodeCount then id :: (t.childrenOf id).flatMap t.met else []) ∧
      (∀ id, (t.childrenOf id).Pairwise (· < ·)) ∧
      (∀ e ∈ seen, e.found = t.get? e.id ∧ t'.get? e.id = e.left) ∧
      (∀ id ∉ seen.map Encounter.id, t'.get? id = t.get? id) ∧
      t'.skeleton = t.skeleton ∧
      t'.size = t'.occupants.length ∧
      (t.nodeCount ≤ start → seen = [] ∧ t' = t ∧ state' = state) := by
  intro t t' state'
  have h : t.Refines ((Register.empty : Register α).after ops) := refines_empty.after ops
  have ht := h.arranged
  have hnodup := nodup_map_id_subtree ht start
  have hids : ∀ step ∈ t.subtree start, step.id < t.nodeCount := fun step hstep =>
    ((mem_map_id_subtree ht).1 (List.mem_map_of_mem hstep)).lt_nodeCount ht
  have hmap := map_id_encounters visit (t.subtree start) (t, state)
  refine ⟨encounters visit (t.subtree start) (t, state),
    walks_recurse visit ht h.tallied start state, hmap ▸ hnodup,
    fun id => hmap ▸ mem_map_id_subtree ht, hmap.trans (met_eq t start).symm, fun id => ?_,
    h.ascending, encounters_foldl_visitOne hnodup t state hids, fun id hid => ?_,
    skeleton_foldl_visitOne _ t state, (h.recurse start visit state).2.tallied, fun hle => ?_⟩
  · split
    · next hid => exact met_of_lt ht hid
    · next hid => exact met_of_le (Nat.le_of_not_lt hid)
  · exact get?_foldl_visitOne_of_not_mem (hmap ▸ hid) t state
  · have hnone := subtree_of_le hle
    simp [t', state', recurse, hnone, encounters]

/-- A visitor that empties the slots with an odd number in them, and
counts the slots it is shown. -/
example :
    let t := (empty : Trie Nat).after [.insert [97] 1, .insert [97, 98] 2, .insert [98] 3]
    let last := t.recurse root (fun _ slot shown => (slot.filter (· % 2 = 0), shown + 1)) 0
    last.2 = 4 ∧ last.1.size = 1 ∧ last.1.find? [97, 98] = some 2 := by
  decide

end Trie

end PrefixCache

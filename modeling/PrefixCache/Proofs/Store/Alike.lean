import PrefixCache.Proofs.Store.Keyed
/-!
# Stores that differ in what has lapsed

Two stores are `Alike` when the same items are live at the same nodes. One
may still hold lapsed items that the other has destroyed already, and no
operation tells them apart: what it does is read off the live items, and
it leaves stores that are alike again (`KeyOperation.alike_run`,
`StemOperation.alike_run`). Sweeping out what has lapsed makes them equal
in all they hold (`Alike.swept`).
-/

namespace PrefixCache

namespace Store

/-- The same items are live at the same nodes, under the same limits and at
the same time. -/
structure Alike (s t : Store) : Prop where
  ground : s.SameGround t
  live (id : NodeId) : t.liveItem? id = s.liveItem? id

namespace Alike

variable {β : Type} {p : Plan β} {s t u : Store}

theorem symm (h : s.Alike t) : t.Alike s := ⟨h.ground.symm, fun id => (h.live id).symm⟩

theorem trans (h : s.Alike t) (h' : t.Alike u) : s.Alike u :=
  ⟨h.ground.trans h'.ground, fun id => (h'.live id).trans (h.live id)⟩

/-- A store is alike to what looking at some of its nodes makes of it. -/
theorem of_looked (hg : s.SameGround t)
    (h : ∀ id, t.trie.get? id = s.liveItem? id ∨ t.trie.get? id = s.trie.get? id) :
    s.Alike t := by
  refine ⟨hg, fun id => ?_⟩
  rcases h id with hlooked | hsame
  · rw [liveItem?, hg.now, hlooked, liveItem?, Option.filter_filter]
    simp
  · exact liveItem?_congr hg.now hsame

theorem of_liveAt (s : Store) (id : NodeId) : s.Alike (s.liveAt id).2 := by
  refine of_looked (sameGround_liveAt s id) fun j => ?_
  rw [get?_liveAt]
  split
  · exact .inl rfl
  · exact .inr rfl

theorem of_liveKey (s : Store) (key : Bytes) : s.Alike (s.liveKey key).2 := by
  cases hf : s.trie.findNode? key with
  | none =>
    rw [liveKey_of_none hf]
    exact ⟨.refl s, fun _ => rfl⟩
  | some id =>
    rw [liveKey_of_some hf]
    exact of_liveAt s id

theorem of_expireSweep (hs : s.trie.Arranged) : s.Alike s.expireSweep.2 :=
  of_looked (sameGround_expireSweep s) fun id => .inl (get?_expireSweep hs id)

theorem findNode? (h : s.Alike t) (hs : s.trie.Arranged) (key : Bytes) :
    t.trie.findNode? key = s.trie.findNode? key :=
  (Trie.findNode?_congr hs h.ground.shape key).symm

theorem liveUnder? (h : s.Alike t) (hs : s.trie.Arranged) (key : Bytes) :
    t.liveUnder? key = s.liveUnder? key := by
  rw [Store.liveUnder?, Store.liveUnder?, h.findNode? hs]
  exact congrArg _ (funext h.live)

theorem barred (h : s.Alike t) (hs : s.trie.Arranged) (key : Bytes) :
    t.Barred key ↔ s.Barred key := by
  rw [barred_iff, barred_iff, h.liveUnder? hs, h.ground.now]

/-! ## Carrying a plan out -/

theorem onNode (h : s.Alike t) (p : Plan β) (id : NodeId) :
    (s.onNode id p.act).2.Alike (t.onNode id p.act).2 := by
  have hs := sameGround_onNode p s id
  have ht := sameGround_onNode p t id
  refine ⟨(hs.symm.trans h.ground).trans ht, fun j => ?_⟩
  -- both leave at the node what the plan leaves, and nothing changes elsewhere
  by_cases hj : id = j
  · rw [liveItem?, liveItem?, get?_onNode, get?_onNode, if_pos hj, if_pos hj, ht.now, hs.now,
      h.ground.now, p.leaves_congr h.ground (h.live j)]
  · rw [liveItem?_onNode p hj, liveItem?_onNode p hj, h.live]

theorem onKey (h : s.Alike t) (hs : s.trie.Arranged) (p : Plan β) (key : Bytes) :
    (s.onKey key p.act).2.Alike (t.onKey key p.act).2 := by
  unfold Store.onKey
  rw [h.findNode? hs]
  cases s.trie.findNode? key with
  | none => exact h
  | some id => exact h.onNode p id

theorem onKey_fst (h : s.Alike t) (hs : s.trie.Arranged) (p : Plan β) (key : Bytes) :
    (t.onKey key p.act).1 = (s.onKey key p.act).1 := by
  rw [Store.onKey_fst, Store.onKey_fst, h.liveUnder? hs, h.ground.limits, h.ground.now]

theorem onStem (h : s.Alike t) (hs : s.trie.Arranged) (p : Plan β) (stem : Bytes) :
    (s.onStem stem p.act).2.Alike (t.onStem stem p.act).2 := by
  have ht := hs.congr h.ground.shape
  have hsg := sameGround_onStem p hs stem
  have htg := sameGround_onStem p ht stem
  refine ⟨(hsg.symm.trans h.ground).trans htg, fun j => ?_⟩
  rw [liveItem?, liveItem?, get?_onStem p hs, get?_onStem p ht, hsg.now, htg.now, h.ground.now,
    ← Trie.nodesBelow_congr hs h.ground.shape, p.leaves_congr h.ground (h.live j)]
  split
  · rfl
  · have hlive := h.live j
    rwa [liveItem?, liveItem?, h.ground.now] at hlive

/-- The same is given to the live members. -/
theorem filterMap_gives (h : s.Alike t) (hs : s.trie.Arranged) (p : Plan β) (stem : Bytes) :
    (t.trie.searchNodes stem).filterMap (p.gives t) =
      (s.trie.searchNodes stem).filterMap (p.gives s) := by
  have hbelow : ∀ u : Store, (u.trie.searchNodes stem).filterMap (p.gives u) =
      (u.trie.nodesBelow stem).filterMap (p.gives u) := by
    intro u
    rw [Trie.searchNodes_eq, List.filterMap_filter]
    refine List.filterMap_congr fun m _ => ?_
    cases hget : u.trie.get? m.2 with
    | none => rw [Plan.gives, liveItem?_of_get?_none hget]; rfl
    | some item => rfl
  rw [hbelow, hbelow, ← Trie.nodesBelow_congr hs h.ground.shape]
  exact List.filterMap_congr fun m _ => p.gives_congr h.ground (h.live m.2)

/-! ## Bringing an item in -/

theorem bringIn (h : s.Alike t) (hs : s.trie.Arranged) (key : Bytes) (full : Nat) (v : Value)
    (ttl : Int) : (s.bringIn key full v ttl).Alike (t.bringIn key full v ttl) := by
  have ht := hs.congr h.ground.shape
  -- in both tries the path ends at the same node, old or new
  obtain ⟨-, hend⟩ := Trie.sameShape_reach hs h.ground.shape hs.root_lt key
  refine ⟨⟨?_, ?_, ?_⟩, fun j => ?_⟩
  · rw [bringIn_trie, bringIn_trie]
    exact Trie.sameShape_insert hs h.ground.shape key _ _
  · rw [bringIn_limits, bringIn_limits, h.ground.limits]
  · rw [bringIn_now, bringIn_now, h.ground.now]
  · rw [liveItem?, liveItem?, bringIn_now, bringIn_now, bringIn_trie, bringIn_trie,
      Trie.get?_insert hs, Trie.get?_insert ht, h.ground.fresh_eq, h.ground.now, hend]
    split
    · rfl
    · have hlive := h.live j
      rwa [liveItem?, liveItem?, h.ground.now] at hlive

theorem set (h : s.Alike t) (hs : s.trie.Arranged) (hsover : ¬ s.OverBudget)
    (htover : ¬ t.OverBudget) (key data : Bytes) (ttl : Int) :
    (t.set key data ttl).1 = (s.set key data ttl).1 ∧
      (s.set key data ttl).2.Alike (t.set key data ttl).2 := by
  by_cases hb : s.Barred key
  · rw [set_of_barred hsover hb, set_of_barred htover ((h.barred hs key).2 hb)]
    exact ⟨rfl, h⟩
  · rw [set_of_free hsover hb, set_of_free htover (mt (h.barred hs key).1 hb)]
    have hlooked : (s.liveKey key).2.Alike (t.liveKey key).2 :=
      ((of_liveKey s key).symm.trans h).trans (of_liveKey t key)
    refine ⟨rfl, ?_⟩
    rw [put_eq, put_eq, hlooked.ground.encode_eq]
    exact hlooked.bringIn (hs.congr (sameGround_liveKey s key).shape) key _ _ ttl

theorem add (h : s.Alike t) (hs : s.trie.Arranged) (key : Bytes) (delta : Int64) :
    (t.add key delta).1 = (s.add key delta).1 ∧ (s.add key delta).2.Alike (t.add key delta).2 := by
  cases hl : s.liveUnder? key with
  | some item =>
    rw [add_of_some hl, add_of_some ((h.liveUnder? hs key).trans hl)]
    exact ⟨h.onKey_fst hs _ key, h.onKey hs _ key⟩
  | none =>
    rw [add_of_none hl, add_of_none ((h.liveUnder? hs key).trans hl)]
    have hlooked : (s.liveKey key).2.Alike (t.liveKey key).2 :=
      ((of_liveKey s key).symm.trans h).trans (of_liveKey t key)
    exact ⟨rfl, hlooked.bringIn (hs.congr (sameGround_liveKey s key).shape) key _ _ _⟩

/-! ## Sweeping both -/

/-- **Sweeping makes like stores equal**, in what they hold under every key
and in what that adds up to. -/
theorem swept (h : s.Alike t) (hs : s.Sound) (ht : t.Sound) :
    (∀ key, t.expireSweep.2.trie.find? key = s.expireSweep.2.trie.find? key) ∧
      t.expireSweep.2.counters.memoryUsed = s.expireSweep.2.counters.memoryUsed ∧
      t.expireSweep.2.counters.items = s.expireSweep.2.counters.items ∧
      t.expireSweep.2.counters.compressedItems = s.expireSweep.2.counters.compressedItems := by
  have hsweep := (upholds_expireSweep hs).sound
  have htsweep := (upholds_expireSweep ht).sound
  -- the counters of a sound store are read off its occupants
  have hocc : t.expireSweep.2.trie.occupants = s.expireSweep.2.trie.occupants := by
    refine Trie.occupants_congr ?_ (funext fun id => ?_)
    · rw [← (sameGround_expireSweep t).shape.count, ← (sameGround_expireSweep s).shape.count,
        h.ground.shape.count]
    · rw [get?_expireSweep hs.arranged, get?_expireSweep ht.arranged, h.live]
  refine ⟨fun key => ?_, ?_, ?_, ?_⟩
  · rw [find?_expireSweep hs.arranged, find?_expireSweep ht.arranged, h.liveUnder? hs.arranged]
  · rw [htsweep.memory, hsweep.memory, hocc]
  · rw [htsweep.items, hsweep.items, hocc]
  · rw [htsweep.compressed, hsweep.compressed, hocc]

end Alike

end Store

/-! ## Operations -/

theorem StemOperation.reading_congr {s t : Store} (h : s.Alike t) (op : StemOperation) :
    op.reading t = op.reading s := by
  cases op with
  | set data => rw [reading, reading, h.ground.encode_eq]
  | _ => rfl

/-- **An operation on a key does not notice what has lapsed**: it answers
the same, and leaves stores that are alike. -/
theorem KeyOperation.alike_run {s t : Store} (h : s.Alike t) (hs : s.trie.Arranged)
    {op : KeyOperation} (hsfits : op.Stores → ¬ s.OverBudget)
    (htfits : op.Stores → ¬ t.OverBudget) (key : Bytes) :
    (op.run key t).1 = (op.run key s).1 ∧ (op.run key s).2.Alike (op.run key t).2 := by
  cases hr : op.reading? with
  | some r =>
    rw [run_eq hr, run_eq hr]
    exact ⟨congrArg (Except.map r.answer) (h.onKey_fst hs r.plan key), h.onKey hs r.plan key⟩
  | none =>
    cases op with
    | set data ttl =>
      obtain ⟨hresult, hstore⟩ := h.set hs (hsfits trivial) (htfits trivial) key data ttl
      exact ⟨congrArg (Except.map Answer.value) hresult, hstore⟩
    | add delta =>
      obtain ⟨hresult, hstore⟩ := h.add hs key delta
      exact ⟨congrArg (Except.map Answer.sum) hresult, hstore⟩
    | _ => cases hr

/-- **Nor does an operation on a stem.** It answers the same too if there
are members in both stores. -/
theorem StemOperation.alike_run {s t : Store} (h : s.Alike t) (hs : s.trie.Arranged)
    {op : StemOperation} (hsfits : op.Stores → ¬ s.OverBudget)
    (htfits : op.Stores → ¬ t.OverBudget) (stem : Bytes) :
    (s.trie.search stem ≠ [] → t.trie.search stem ≠ [] →
      (op.run stem t).1 = (op.run stem s).1) ∧
      (op.run stem s).2.Alike (op.run stem t).2 := by
  rw [run_eq hsfits, run_eq htfits, reading_congr h]
  refine ⟨fun hsome htsome => ?_, h.onStem hs _ stem⟩
  simp only [Outcome.map]
  rw [Store.onStem_fst _ hs (mt Trie.search_eq_nil_iff.2 hsome),
    Store.onStem_fst _ (hs.congr h.ground.shape) (mt Trie.search_eq_nil_iff.2 htsome),
    h.filterMap_gives hs]

end PrefixCache

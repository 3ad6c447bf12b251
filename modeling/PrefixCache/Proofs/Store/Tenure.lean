import PrefixCache.Proofs.Store.Keyed
/-!
# How long a key keeps its item

A tenure says which items may stand under a key and when their time is
over, which is when they lapse. A store lodges it under a key when one of
these items is there, or nothing is since the time is over: whether a
lapsed item is still there or was swept out makes no difference. That is
kept by every operation that leaves the key alone or whose plan puts such
an item in the place of another, as long as nothing is evicted and the
clock does not go back (`Operation.lodges_run`).

An item can tell when its time is over as long as its age fits in a signed
word. So a tenure says what its items count from, and a store lodges it
only while its clock is not too far from that (`Tenure.Tells`).
-/

namespace PrefixCache

/-- Which items may stand under a key, what they count from, and when their
time is over. -/
structure Tenure where
  Fits : Item → Prop
  since : Int
  Over : Int → Prop
  lapsed_iff : ∀ {item : Item}, Fits item → ∀ {now : Int}, FitsInt64 (now - since) →
    (item.Lapsed now ↔ Over now)
  later : ∀ {now now' : Int}, FitsInt64 (now - since) → FitsInt64 (now' - since) →
    Over now → now ≤ now' → Over now'

/-- The items can tell at that time how old they are. -/
def Tenure.Tells (T : Tenure) (now : Int) : Prop := FitsInt64 (now - T.since)

/-- The times at which items can tell their age have no gap. -/
theorem Tenure.Tells.between {T : Tenure} {first now last : Int} (hfirst : T.Tells first)
    (hlast : T.Tells last) (hle : first ≤ now) (hle' : now ≤ last) : T.Tells now := by
  obtain ⟨hlow, -⟩ := hfirst
  obtain ⟨-, hhigh⟩ := hlast
  constructor <;> omega

/-! ## Plans -/

namespace Plan

variable {β : Type} {T : Tenure}

/-- The plan leaves an item that fits in the place of another. -/
def Lodges (p : Plan β) (T : Tenure) : Prop :=
  ∀ (limits : StoreLimits) (now : Int) (item : Item), T.Fits item →
    ∃ new, (p limits now item).2.slot limits now item = some new ∧ T.Fits new

theorem lodges_of_keep {p : Plan β} (h : ∀ limits now item, (p limits now item).2 = .keep) :
    p.Lodges T := by
  intro limits now item hfits
  exact ⟨item, by rw [h]; rfl, hfits⟩

theorem lodges_read (h : ∀ item now, T.Fits item → T.Fits (item.touch now)) : read.Lodges T :=
  fun _ now item hfits => ⟨_, rfl, h item now hfits⟩

theorem lodges_unlock
    (h : ∀ item now, T.Fits item → T.Fits { item.touch now with lock := 0 }) : unlock.Lodges T :=
  fun _ now item hfits => ⟨_, rfl, h item now hfits⟩

end Plan

/-! ## Stores -/

namespace Store

variable {s s' : Store} {key : Bytes} {T : Tenure}

/-- An item that fits is under the key, or nothing is since its time is
over. -/
structure Lodges (s : Store) (key : Bytes) (T : Tenure) : Prop where
  tells : T.Tells s.now
  lodged : (∃ item, s.trie.find? key = some item ∧ T.Fits item) ∨
    (s.trie.find? key = none ∧ T.Over s.now)

namespace Lodges

/-- What is live under the key fits, until its time is over. -/
theorem live (h : s.Lodges key T) :
    (∃ item, s.liveUnder? key = some item ∧ T.Fits item ∧ ¬ T.Over s.now) ∨
      (s.liveUnder? key = none ∧ T.Over s.now) := by
  rcases h.lodged with ⟨item, hf, hfits⟩ | ⟨hf, hover⟩
  · -- the item may still be there when its time is over; it is not live then
    have hlapsed := T.lapsed_iff hfits h.tells
    by_cases hover : T.Over s.now
    · refine .inr ⟨Option.eq_none_iff_forall_ne_some.2 fun other hother => ?_, hover⟩
      obtain ⟨hf', hlive⟩ := liveUnder?_eq_some.1 hother
      obtain rfl := Option.some.inj (hf.symm.trans hf')
      exact hlive (hlapsed.2 hover)
    · exact .inl ⟨item, liveUnder?_eq_some.2 ⟨hf, mt hlapsed.1 hover⟩, hfits, hover⟩
  · refine .inr ⟨Option.eq_none_iff_forall_ne_some.2 fun item hitem => ?_, hover⟩
    rw [(liveUnder?_eq_some.1 hitem).1] at hf
    cases hf

/-- A plan that leaves items that fit keeps it. -/
theorem of_leavesUnder (h : s.Lodges key T) {β : Type} {p : Plan β} (hp : p.Lodges T)
    (hnow : s'.now = s.now) (hf : s'.trie.find? key = p.leavesUnder s key) : s'.Lodges key T := by
  refine ⟨hnow ▸ h.tells, ?_⟩
  rcases h.live with ⟨item, hlive, hfits, -⟩ | ⟨hnone, hover⟩
  · obtain ⟨new, hnew, hfits'⟩ := hp s.limits s.now item hfits
    exact .inl ⟨new, by rw [hf, p.leavesUnder_of_live hlive, hnew], hfits'⟩
  · exact .inr ⟨by rw [hf, Plan.leavesUnder, hnone, Option.bind_none], hnow ▸ hover⟩

/-- Taking out what has lapsed keeps it. -/
theorem of_liveUnder? (h : s.Lodges key T) (hnow : s'.now = s.now)
    (hf : s'.trie.find? key = s.liveUnder? key) : s'.Lodges key T := by
  refine ⟨hnow ▸ h.tells, ?_⟩
  rcases h.live with ⟨item, hlive, hfits, -⟩ | ⟨hnone, hover⟩
  · exact .inl ⟨item, hf.trans hlive, hfits⟩
  · exact .inr ⟨hf.trans hnone, hnow ▸ hover⟩

/-- So does whatever leaves the key alone. -/
theorem of_same (h : s.Lodges key T) (hnow : s'.now = s.now)
    (hf : s'.trie.find? key = s.trie.find? key) : s'.Lodges key T := by
  refine ⟨hnow ▸ h.tells, ?_⟩
  rcases h.lodged with ⟨item, hitem, hfits⟩ | ⟨hnone, hover⟩
  · exact .inl ⟨item, hf.trans hitem, hfits⟩
  · exact .inr ⟨hf.trans hnone, hnow ▸ hover⟩

/-- So does time that passes, while items can tell their age. -/
theorem setClock (h : s.Lodges key T) {now : Int} (hle : s.now ≤ now) (htells : T.Tells now) :
    (s.setClock now).Lodges key T :=
  ⟨htells, h.lodged.imp_right fun ⟨hnone, hover⟩ => ⟨hnone, T.later h.tells htells hover hle⟩⟩

/-- **The key is read until the time is over**, if all items that fit show
the same value. -/
theorem get_fst (h : s.Lodges key T) {shown : Value}
    (hshown : ∀ item, T.Fits item → expose item.value = .ok shown) [Decidable (T.Over s.now)] :
    (s.get key).1 = if T.Over s.now then .error .notFound else .ok shown := by
  rw [Store.get, ← Plan.act_read, onKey_fst]
  rcases h.live with ⟨item, hlive, hfits, hover⟩ | ⟨hnone, hover⟩
  · rw [hlive, if_neg hover]
    simp only [Plan.read, hshown item hfits, Except.mapError]
  · rw [hnone, if_pos hover]

end Lodges

end Store

/-! ## Operations -/

/-- The operation leaves the key to its tenure: if it is for the key, its
plan leaves an item that fits. It does not evict, destroy everything or
turn the clock back, or set it beyond what items can tell. -/
def Operation.Lodges (key : Bytes) (T : Tenure) (s : Store) : Operation → Prop
  | onKey target op => target = key → ∃ r, op.reading? = some r ∧ r.plan.Lodges T
  | onStem stem op => stem <+: key → ¬ op.Stores ∧ (op.reading s).plan.Lodges T
  | memorySweep => ¬ s.OverBudget
  | destroyAll => False
  | setClock now => s.now ≤ now ∧ T.Tells now
  | check _ | expireSweep | note _ => True

section Lodging

variable {s : Store} {key : Bytes} {T : Tenure}

theorem KeyOperation.lodges_run (hs : s.trie.Arranged) (h : s.Lodges key T) {op : KeyOperation}
    {target : Bytes} (hop : (Operation.onKey target op).Lodges key T s) :
    (op.run target s).2.Lodges key T := by
  by_cases hk : target = key
  · obtain ⟨r, hr, hplan⟩ := hop hk
    refine h.of_leavesUnder hplan (now_run op target s) ?_
    rw [run_eq hr]
    exact (Store.find?_onKey hs r.plan target key).trans (if_pos hk)
  · exact h.of_same (now_run op target s) (find?_run_of_ne hs op hk)

theorem StemOperation.lodges_run (hs : s.trie.Arranged) (h : s.Lodges key T) {op : StemOperation}
    {stem : Bytes} (hop : (Operation.onStem stem op).Lodges key T s) :
    (op.run stem s).2.Lodges key T := by
  by_cases hk : stem <+: key
  · obtain ⟨hstores, hplan⟩ := hop hk
    refine h.of_leavesUnder hplan (now_run hs op stem) ?_
    rw [run_eq fun hst => absurd hst hstores]
    exact (Store.find?_onStem hs (op.reading s).plan stem key).trans (if_pos hk)
  · exact h.of_same (now_run hs op stem) (find?_run_of_outside hs op hk)

/-- **An operation that leaves the key to its tenure keeps it lodged.** -/
theorem Operation.lodges_run (hs : s.trie.Arranged) (h : s.Lodges key T) {op : Operation}
    (hop : op.Lodges key T s) : (op.run s).2.Lodges key T := by
  cases op with
  | onKey target op => exact KeyOperation.lodges_run hs h hop
  | onStem stem op => exact StemOperation.lodges_run hs h hop
  | check id =>
    have hnow := (Store.sameGround_liveAt s id).now
    have hf := Store.find?_liveAt hs id key
    split at hf
    · exact h.of_liveUnder? hnow hf
    · exact h.of_same hnow hf
  | expireSweep =>
    exact h.of_liveUnder? (Store.sameGround_expireSweep s).now (Store.find?_expireSweep hs key)
  | memorySweep =>
    have hsame : s.memorySweep.2 = s := by rw [Store.memorySweep, if_neg hop]
    exact hsame.symm ▸ h
  | destroyAll => exact hop.elim
  | setClock now => exact h.setClock hop.1 hop.2
  | note figures => exact h.of_same rfl rfl

end Lodging

end PrefixCache

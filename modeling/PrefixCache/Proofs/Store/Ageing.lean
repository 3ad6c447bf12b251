import Mathlib.Algebra.Ring.Int.Defs
import PrefixCache.Proofs.Store.Lifetime
import PrefixCache.Proofs.Store.Relocking
import PrefixCache.Proofs.Store.Succession
/-!
# How items grow old

As long as the clock does not go back, the times of an item are in order:
it was created, then its windows started over, then it was last used, and
all that is past (`Item.Timely`). The seconds an item has left say when
its time to live is over, and that is when a key that is only read stops
being found, unless a lock holds its item (`times_stay_in_order`). As long
as the clock is a signed word, too, no difference of times is too large for
one (`Item.Timely.inRange`).
-/

namespace PrefixCache

/-! ## Items -/

namespace Item

variable {item new : Item} {old : Option Item} {limits : StoreLimits} {now now' : Int}
  {grants : Int → Prop} {brings : Value → Prop}

/-- The times of the item are in order and not in the future, and its time
to live and its lock are what they can be. -/
structure Timely (item : Item) (limits : StoreLimits) (now : Int) : Prop where
  created : 0 ≤ item.createdAt
  restarted : item.createdAt ≤ item.touchedAt
  used : item.touchedAt ≤ item.lastAccess
  past : item.lastAccess ≤ now
  capped : item.ttl ≤ limits.maxItemTtl
  lock : -1 ≤ item.lock

theorem Timely.later (h : item.Timely limits now) (hle : now ≤ now') : item.Timely limits now' :=
  { h with past := Int.le_trans h.past hle }

/-- **Times in order stay in order**, from an item to what comes after
it. -/
theorem Succeeds.timely (h : Item.Succeeds limits now grants brings old new) (hnow : 0 ≤ now)
    (hold : ∀ item ∈ old, item.Timely limits now) : new.Timely limits now := by
  cases h with
  | stays => exact hold _ rfl
  | used item =>
    have h := hold item rfl
    exact { h with used := Int.le_trans h.used h.past, past := Int.le_refl now }
  | unlocked item =>
    have h := hold item rfl
    have hlock : (-1 : Int) ≤ 0 := by decide
    exact { h with
      used := Int.le_trans h.used h.past, past := Int.le_refl now, lock := hlock }
  | summed item =>
    have h := hold item rfl
    exact { h with used := Int.le_trans h.used h.past, past := Int.le_refl now }
  | locked item seconds =>
    have h := hold item rfl
    refine { h with
      restarted := Int.le_trans h.restarted (Int.le_trans h.used h.past)
      used := Int.le_refl now, past := Int.le_refl now, lock := ?_ }
    by_cases hneg : seconds < 0
    · exact Int.le_of_eq (if_pos hneg).symm
    · have hlock : -1 ≤ seconds := by omega
      simpa only [if_neg hneg] using hlock
  | granted item =>
    have h := hold item rfl
    exact { h with
      restarted := Int.le_trans h.restarted (Int.le_trans h.used h.past)
      used := Int.le_refl now, past := Int.le_refl now, capped := Int.min_le_right _ _ }
  | came =>
    have hlock : (-1 : Int) ≤ 0 := by decide
    exact ⟨hnow, Int.le_refl now, Int.le_refl now, Int.le_refl now, Int.min_le_right _ _, hlock⟩

/-- A time to live stays below a bound that no request reaches. -/
theorem Succeeds.ttl_lt (h : Item.Succeeds limits now grants brings old new) {bound : Int}
    (hpos : 0 ≤ bound) (hgrants : ∀ ttl, grants ttl → ttl < bound)
    (hold : ∀ item ∈ old, item.ttl < bound) : new.ttl < bound := by
  cases h with
  | stays => exact hold _ rfl
  | used item | unlocked item | summed item | locked item => exact hold item rfl
  | granted item hgrant =>
    exact Int.lt_of_le_of_lt (Int.min_le_left _ _) (hgrants _ hgrant)
  | came old hbrings hgrant =>
    refine Int.lt_of_le_of_lt (Int.min_le_left _ _) ?_
    rcases hgrant with hgrant | rfl
    · exact hgrants _ hgrant
    · omega

/-! ### The seconds left -/

theorem left_cases (item : Item) (now : Int) :
    (item.left now = -1 ∧ item.ttl ≤ 0) ∨ (0 ≤ item.left now ∧ 0 < item.ttl) := by
  unfold left
  split
  · next h => exact .inl ⟨rfl, h⟩
  · next h => exact .inr ⟨Int.le_max_right _ _, Int.not_le.1 h⟩

/-- **The seconds left say when the time is over.** -/
theorem elapsed_iff_left (hrange : item.InRange now) (hrange' : item.InRange now')
    (h : 0 ≤ item.left now) (hle : now ≤ now') :
    item.Elapsed now' ↔ now + item.left now ≤ now' := by
  rcases item.left_cases now with ⟨hnone, -⟩ | ⟨-, hpos⟩
  · omega
  · rw [Elapsed, age_of_fits hrange'.age, hrange.left_eq hpos]
    omega

/-- So they say when the item lapses. -/
theorem lapsed_iff_left (hrange : item.InRange now) (hrange' : item.InRange now')
    (hle : now ≤ now') :
    item.Lapsed now' ↔
      ¬ (item.left now = -1 ∨ now' < now + item.left now ∨ item.Locked now') := by
  rw [not_or, not_or, Int.not_lt, ← and_assoc]
  refine and_congr_left fun _ => ?_
  rcases item.left_cases now with ⟨hnone, httl⟩ | ⟨hleft, -⟩
  · exact iff_of_false (fun h => Int.not_le.2 h.1 httl) fun h => h.1 hnone
  · rw [elapsed_iff_left hrange hrange' hleft hle]
    exact ⟨fun h => ⟨by omega, h⟩, fun h => h.2⟩

theorem not_elapsed_of_ttl_lt_one (h : item.ttl < 1) : ¬ item.Elapsed now :=
  fun helapsed => by
    have := helapsed.1
    omega

/-- What has lapsed stays lapsed, while its age fits. -/
theorem Lapsed.later (h : item.Lapsed now) (hle : now ≤ now')
    (hfits : FitsInt64 (now - item.touchedAt)) (hfits' : FitsInt64 (now' - item.touchedAt)) :
    item.Lapsed now' := by
  obtain ⟨⟨hpos, hover⟩, hfree⟩ := h
  have hage : item.age now = now - item.touchedAt := age_of_fits hfits
  have hage' : item.age now' = now' - item.touchedAt := age_of_fits hfits'
  exact ⟨⟨hpos, by omega⟩, not_locked_later hfree hle hfits hfits'⟩

/-- **Times in order have differences that fit**, when the clock and the time
to live are signed words. -/
theorem Timely.inRange (h : item.Timely limits now) (hnow : now < 2 ^ 63)
    (httl : item.ttl < 2 ^ 63) : item.InRange now := by
  obtain ⟨hcreated, hrestarted, hused, hpast, -, -⟩ := h
  refine ⟨⟨?_, ?_⟩, fun hpos => ⟨?_, ?_⟩, ⟨?_, ?_⟩⟩ <;> omega

end Item

/-! ## Runs on which the clock does not go back -/

/-- The operation does not turn the clock back, and sets it to a signed
word. -/
def Operation.Forward (s : Store) : Operation → Prop
  | setClock now => s.now ≤ now ∧ now < 2 ^ 63
  | _ => True

instance (s : Store) : (op : Operation) → Decidable (op.Forward s)
  | .setClock now => inferInstanceAs (Decidable (s.now ≤ now ∧ now < 2 ^ 63))
  | .onKey _ _ | .onStem _ _ | .check _ | .expireSweep | .memorySweep | .destroyAll | .note _ =>
    instDecidableTrue

/-- A run of allowed operations leads to the store, from one without items,
and the clock is never negative and never goes back. The clock and the
longest time to live are signed words. -/
inductive Store.Aged (allowed : Operation → Prop) : Store → Prop
  | empty (limits : StoreLimits) {now : Int} : 0 ≤ now → now < 2 ^ 63 →
      limits.maxItemTtl < 2 ^ 63 → Aged allowed (.empty limits now)
  | step {s : Store} (op : Operation) :
      Aged allowed s → allowed op → op.Forward s → Aged allowed (op.run s).2

theorem Store.Aged.sound {allowed : Operation → Prop} {s : Store} (h : s.Aged allowed) :
    s.Sound := by
  induction h with
  | empty limits _ _ _ => exact sound_empty limits _
  | step op _ _ _ ih => exact (Operation.upholds_run ih op).sound

section Ageing

variable {s : Store} {key : Bytes} {item : Item}

/-- Every item in the store is timely, at a clock that is a signed word. -/
structure Store.Timely (s : Store) : Prop where
  nonneg : 0 ≤ s.now
  clock : s.now < 2 ^ 63
  longest : s.limits.maxItemTtl < 2 ^ 63
  items : ∀ key, ∀ item ∈ s.trie.find? key, item.Timely s.limits s.now

/-- **The differences of times fit**, now and later. -/
theorem Store.Timely.inRange (h : s.Timely) (hf : s.trie.find? key = some item) {t : Int}
    (hle : s.now ≤ t) (ht : t < 2 ^ 63) : item.InRange t := by
  have htimely := h.items key item hf
  exact (htimely.later hle).inRange ht (Int.lt_of_le_of_lt htimely.capped h.longest)

/-- **Operations keep items timely.** -/
theorem Operation.timely_run (hs : s.trie.Arranged) (h : s.Timely) {op : Operation}
    (hop : op.Forward s) : (op.run s).2.Timely := by
  obtain ⟨hlimits, hnow⟩ := Operation.terms_run hs op
  have hclock : s.now ≤ op.clock s ∧ op.clock s < 2 ^ 63 := by
    cases op with
    | setClock now => exact hop
    | _ => exact ⟨Int.le_refl _, h.clock⟩
  rw [← hnow] at hclock
  refine ⟨Int.le_trans h.nonneg hclock.1, hclock.2, hlimits ▸ h.longest, fun key new hnew => ?_⟩
  rw [hlimits]
  exact ((Operation.succeeds_run hs hnew).timely h.nonneg (h.items key)).later hclock.1

theorem Store.Aged.timely {allowed : Operation → Prop} (h : s.Aged allowed) : s.Timely := by
  induction h with
  | empty limits hnow hclock hlongest =>
    refine ⟨hnow, hclock, hlongest, fun key item hitem => ?_⟩
    rw [Store.empty, Trie.find?_empty] at hitem
    cases hitem
  | step op hs _ hop ih => exact Operation.timely_run hs.sound.arranged ih hop

/-- **What lives for ever goes on doing so** under a key for which no time
to live is asked. -/
theorem Store.ttl_lt_after (hs : s.Sound) (h : ∀ item ∈ s.trie.find? key, item.ttl < 1)
    {ops : List Operation} (hops : ∀ op ∈ ops, ∀ ttl, ¬ op.Grants key ttl) :
    ∀ item ∈ (s.after ops).trie.find? key, item.ttl < 1 := by
  induction ops generalizing s with
  | nil => exact h
  | cons op ops ih =>
    have hop := hops op List.mem_cons_self
    refine ih (Operation.upholds_run hs op).sound (fun item hitem => ?_) fun later hlater =>
      hops later (List.mem_cons_of_mem op hlater)
    exact (Operation.succeeds_run hs.arranged hitem).ttl_lt (by decide)
      (fun ttl hgrant => absurd hgrant (hop ttl)) h

/-! ## Keys that are only read -/

/-- The tenure of an item, whenever it was last used. -/
def Item.tenure (item : Item) : Tenure where
  Fits other := ∃ access, other = { item with lastAccess := access }
  since := item.touchedAt
  Over := item.Lapsed
  lapsed_iff := by
    rintro _ ⟨access, rfl⟩ now -
    exact Iff.rfl
  later hfits hfits' hover hle := hover.later hle hfits hfits'

instance (item : Item) (now : Int) : Decidable (item.tenure.Over now) :=
  inferInstanceAs (Decidable (item.Lapsed now))

/-- Asking for an attribute of a live item gives it, and changes
nothing. -/
theorem Store.ask_of_live (h : s.liveUnder? key = some item) (a : Attribute) :
    s.ask key a = (.ok (a.of item s.now), s) := by
  obtain ⟨id, hf, hitem⟩ := Option.bind_eq_some_iff.1 h
  exact onKey_of_live hf hitem (Action.ask a)

end Ageing

/-! ## The law of ageing -/

/-- **Times stay in order, and the seconds left say when an item goes.** Let
a run lead to a store on whose way the clock was never negative and never
went back. Every item is timely. An item that has not lapsed can be asked
for its seconds left. If they are `-1`, no later item of the key ever
elapses unless a time to live is asked for that key. If there are `left`
of them, the time to live is over at a time from now on just if that time
is `left` seconds away or more. And if its value can be read, it is read
after any run that spares the key and does not unlock it, while seconds are
left or the item is locked; otherwise the key is not found. Now and later,
as long as the clock is a signed word, all differences of times fit in
64 bits. -/
theorem times_stay_in_order {s : Store} (hs : s.Aged fun _ => True) :
    (∀ key item, s.trie.find? key = some item → item.Timely s.limits s.now) ∧
    (∀ key item, s.trie.find? key = some item → ¬ item.Lapsed s.now →
      ∃ left, s.ask key .left = (.ok left, s) ∧ -1 ≤ left ∧
        (left = -1 → ∀ ops, (∀ op ∈ ops, ∀ ttl, ¬ Operation.Grants op key ttl) →
          ∀ later, (s.after ops).trie.find? key = some later → ∀ t, ¬ later.Elapsed t) ∧
        (0 ≤ left → ∀ t, s.now ≤ t → t < 2 ^ 63 → (item.Elapsed t ↔ s.now + left ≤ t)) ∧
        (s.Reached Operation.Restores → ∃ shown, Store.expose item.value = .ok shown ∧
          ∀ ops, s.Spared key ops → (∀ op ∈ ops, ¬ op.Unlocks key) →
            let after := s.after ops
            after.now < 2 ^ 63 → (after.get key).1 =
              if left = -1 ∨ after.now < s.now + left ∨ item.Locked after.now then .ok shown
              else .error .notFound)) ∧
    ∀ key item, s.trie.find? key = some item →
      ∀ t, s.now ≤ t → t < 2 ^ 63 → item.InRange t := by
  have htimely : s.Timely := hs.timely
  refine ⟨htimely.items, fun key item hf hlive => ?_, fun key item hf t => htimely.inRange hf⟩
  have hunder : s.liveUnder? key = some item := Store.liveUnder?_eq_some.2 ⟨hf, hlive⟩
  have hrange : item.InRange s.now := htimely.inRange hf (Int.le_refl _) htimely.clock
  refine ⟨item.left s.now, Store.ask_of_live hunder .left, ?_, ?_, ?_, ?_⟩
  · have := item.left_cases s.now
    omega
  · intro hleft ops hops later hlater t
    refine Item.not_elapsed_of_ttl_lt_one (Store.ttl_lt_after hs.sound ?_ hops later hlater)
    intro other hother
    obtain rfl := Option.some.inj (hf.symm.trans hother)
    have := item.left_cases s.now
    omega
  · exact fun hleft t hle ht => Item.elapsed_iff_left hrange (htimely.inRange hf hle ht) hleft hle
  · intro hreached
    obtain ⟨shown, hshown⟩ := hreached.legible.of_find? hf
    refine ⟨shown, hshown, ?_⟩
    intro ops hops hlock after ht
    have hle : s.now ≤ after.now := Store.Spared.now_le hs.sound hops
    have hrange' : item.InRange after.now := htimely.inRange hf hle ht
    have hlodges : s.Lodges key item.tenure := ⟨hrange.age, .inl ⟨item, hf, item.lastAccess, rfl⟩⟩
    have hlast : after.Lodges key item.tenure := by
      refine hlodges.after hs.sound hops hrange'.age ?_ fun op hop hun => absurd hun (hlock op hop)
      rintro _ now ⟨access, rfl⟩
      exact ⟨now, rfl⟩
    have hfits : ∀ other, item.tenure.Fits other → Store.expose other.value = .ok shown := by
      rintro _ ⟨access, rfl⟩
      exact hshown
    have hlapsed : item.Lapsed after.now ↔ _ := Item.lapsed_iff_left hrange hrange' hle
    rw [hlast.get_fst hfits]
    by_cases h : item.Lapsed after.now
    · exact (if_pos h).trans (if_neg (hlapsed.1 h)).symm
    · exact (if_neg h).trans (if_pos (not_not.1 (mt hlapsed.2 h))).symm

/-- A store that compresses what is longer than eight bytes, with an item
that has a lock and one that lives for ever. -/
def Store.dated : Store :=
  (Store.empty { compressAbove := 8, maxItemTtl := 60 } 100).after
    [.onKey [97] (.set (List.replicate 32 7) 90), .setClock 110, .onKey [97] (.lock 70),
      .onKey [98] (.set [1] (-1)), .setClock 130]

/-- The locked item in `Store.dated`: its lock outlasts its time to live. -/
def Item.dated : Item :=
  { value := Store.dated.encode (List.replicate 32 7), createdAt := 100, touchedAt := 110,
    lastAccess := 110, ttl := 60, lock := 70 }

theorem dated_items_stay_in_order :
    Store.dated.Aged (fun _ => True) ∧ Store.dated.Reached Operation.Restores ∧
      Store.dated.trie.find? [97] = some Item.dated ∧
      Item.dated.Timely Store.dated.limits Store.dated.now ∧
      Item.dated.InRange (2 ^ 63 - 1) ∧
      (Store.dated.ask [97] .left).1 = .ok 40 ∧
      (∀ t, Store.dated.now ≤ t → t < 2 ^ 63 → (Item.dated.Elapsed t ↔ 170 ≤ t)) ∧
      (let busy : List Operation :=
        [.onKey [97] .get, .onStem [98] (.set [2]), .setClock 175, .expireSweep, .onStem [] .keys]
       ((Store.dated.after (busy ++ [.setClock 179])).get [97]).1 =
          .ok (.plain (List.replicate 32 7)) ∧
         ((Store.dated.after (busy ++ [.setClock 180])).get [97]).1 = .error .notFound) ∧
      (Store.dated.ask [98] .left).1 = .ok (-1) ∧
      ∀ later, (Store.dated.after [.onKey [98] .get, .setClock 1000]).trie.find? [98] = some later →
        ∀ t, ¬ later.Elapsed t := by
  have haged : Store.dated.Aged fun _ => True :=
    .step (.setClock 130)
      (.step (.onKey [98] (.set [1] (-1)))
        (.step (.onKey [97] (.lock 70))
          (.step (.setClock 110)
            (.step (.onKey [97] (.set (List.replicate 32 7) 90))
              (.empty _ (by decide) (by decide) (by decide)) trivial trivial)
            trivial (by decide +kernel))
          trivial trivial)
        trivial trivial)
      trivial (by decide +kernel)
  have hs : Store.dated.Reached Operation.Restores :=
    Store.Reached.after (.empty _ 100) (by decide +kernel)
  have hf : Store.dated.trie.find? [97] = some Item.dated := by decide +kernel
  have hforty : (Store.dated.ask [97] .left).1 = .ok 40 := by decide +kernel
  have hnone : (Store.dated.ask [98] .left).1 = .ok (-1) := by decide +kernel
  have hvalue : Store.expose Item.dated.value = .ok (.plain (List.replicate 32 7)) := by
    decide +kernel
  have hnow : Store.dated.now = 130 := by decide +kernel
  obtain ⟨htimely, hleft, hrange⟩ := times_stay_in_order haged
  obtain ⟨left, hask, -, -, helapsed, hread⟩ := hleft [97] Item.dated hf (by decide +kernel)
  obtain rfl : left = 40 := Except.ok.inj ((congrArg Prod.fst hask).symm.trans hforty)
  obtain ⟨shown, hshown, hget⟩ := hread hs
  obtain rfl := Except.ok.inj (hshown.symm.trans hvalue)
  have hlasting : (Store.dated.trie.find? [98]).isSome := by decide +kernel
  obtain ⟨item, hitem⟩ := Option.isSome_iff_exists.1 hlasting
  have hlive : ∀ item ∈ Store.dated.trie.find? [98], ¬ item.Lapsed Store.dated.now := by
    decide +kernel
  obtain ⟨left, hask, -, hforever, -⟩ := hleft [98] item hitem (hlive item hitem)
  obtain rfl : left = -1 := Except.ok.inj ((congrArg Prod.fst hask).symm.trans hnone)
  refine ⟨haged, hs, hf, htimely _ _ hf, ?_, hforty, ?_, ⟨?_, ?_⟩, hnone, ?_⟩
  · exact hrange _ _ hf _ (by decide +kernel) (by decide)
  · intro t hle ht
    rw [helapsed (by decide) t hle ht, hnow]
    omega
  · rw [hget _ (by decide +kernel) (by simp [Operation.Unlocks]) (by decide +kernel)]
    exact if_pos (by decide +kernel)
  · rw [hget _ (by decide +kernel) (by simp [Operation.Unlocks]) (by decide +kernel)]
    exact if_neg (by decide +kernel)
  · exact hforever rfl _ (by simp [Operation.Grants, KeyOperation.Grants])

end PrefixCache

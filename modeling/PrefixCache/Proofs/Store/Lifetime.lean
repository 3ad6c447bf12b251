import PrefixCache.Proofs.Store.Locks
import PrefixCache.Proofs.Store.Tenure
import PrefixCache.Proofs.Store.Values
/-!
# The lifetime of a value

Storing under a key makes a deposit: a value, the time it came in, and how
long it was granted. An operation that does not write to the key leaves the
deposit with the item that holds it, and the only way for that item to go
is to be destroyed when the time is over. So a store that made a deposit
lodges it along every run that spares the key (`Store.Lodges.after`), and
reading the key gives the deposit exactly until its deadline
(`value_lives_until_deadline`). That holds as long as the time that has
passed fits in a signed word. When it does not, it wraps, and a value can
be read after its deadline (`value_outlives_deadline`).
-/

namespace PrefixCache

/-! ## Deposits -/

/-- A value with the time it came in, and the seconds it was granted; no
positive number grants it for ever. -/
structure Deposit where
  value : Value
  since : Int
  granted : Int

/-- The time of the deposit is over. -/
def Deposit.Over (d : Deposit) (now : Int) : Prop := 0 < d.granted ∧ d.granted ≤ now - d.since

instance (d : Deposit) (now : Int) : Decidable (d.Over now) :=
  inferInstanceAs (Decidable (_ ∧ _))

/-- What is over stays over. -/
theorem Deposit.Over.later {d : Deposit} {now now' : Int} (h : d.Over now) (hle : now ≤ now') :
    d.Over now' :=
  ⟨h.1, Int.le_trans h.2 (Int.sub_le_sub_right hle _)⟩

/-- The item holds the deposit, without a lock. -/
structure Item.Holds (item : Item) (d : Deposit) : Prop where
  value : item.value = d.value
  touchedAt : item.touchedAt = d.since
  ttl : item.ttl = d.granted
  lock : item.lock = 0

theorem Item.Holds.lapsed_iff {item : Item} {d : Deposit} (h : item.Holds d) {now : Int}
    (hfits : FitsInt64 (now - d.since)) : item.Lapsed now ↔ d.Over now := by
  have hfree : ¬ item.Locked now := by simp [Item.Locked, h.lock, Item.permanentLock]
  have hage : item.age now = now - d.since := by
    rw [← h.touchedAt] at hfits ⊢
    exact Item.age_of_fits hfits
  rw [Item.Lapsed, and_iff_left hfree, Item.Elapsed, h.ttl, hage, Deposit.Over]

/-- The tenure of whatever item holds the deposit. -/
def Deposit.tenure (d : Deposit) : Tenure where
  Fits item := item.Holds d
  since := d.since
  Over := d.Over
  lapsed_iff := Item.Holds.lapsed_iff
  later _ _ := Deposit.Over.later

instance (d : Deposit) (now : Int) : Decidable (d.tenure.Over now) :=
  inferInstanceAs (Decidable (d.Over now))

/-! ## Making a deposit -/

namespace Store

/-- The deposit that storing makes. -/
def deposit (s : Store) (data : Bytes) (ttl : Int) : Deposit :=
  { value := s.encode data, since := s.now, granted := min ttl s.limits.maxItemTtl }

/-- **Storing that succeeds makes a deposit.** -/
theorem lodges_set {s : Store} (hs : s.trie.Arranged) {key data : Bytes} {ttl : Int} {shown : Value}
    (hset : (s.set key data ttl).1 = .ok shown) :
    (s.set key data ttl).2.Lodges key (s.deposit data ttl).tenure := by
  by_cases hover : s.OverBudget
  · rw [set_of_overBudget hover] at hset
    cases hset
  by_cases hb : s.Barred key
  · rw [set_of_barred hover hb] at hset
    cases hset
  · refine ⟨?_, .inl ⟨s.fresh (s.encode data) ttl, ?_, ⟨rfl, rfl, rfl, rfl⟩⟩⟩
    · -- no time has passed yet
      have hnow : (s.set key data ttl).2.now = s.now :=
        KeyOperation.now_run (.set data ttl) key s
      have hnone : (s.set key data ttl).2.now - s.now = 0 := by omega
      simp only [Tenure.Tells, Deposit.tenure, deposit, hnone]
      decide
    · rw [find?_set hs hover hb, if_pos rfl]

end Store

/-! ## Runs that spare a key -/

/-- The operation does not write to the key, evict, destroy everything or
turn the clock back. -/
def Operation.Spares (key : Bytes) (s : Store) : Operation → Prop
  | onKey target op => target = key → ¬ op.Writes
  | onStem stem op => stem <+: key → ¬ op.Writes
  | memorySweep => ¬ s.OverBudget
  | destroyAll => False
  | setClock now => s.now ≤ now
  | check _ | expireSweep | note _ => True

instance (key : Bytes) (s : Store) : (op : Operation) → Decidable (op.Spares key s)
  | .onKey target op => inferInstanceAs (Decidable (target = key → ¬ op.Writes))
  | .onStem stem op => inferInstanceAs (Decidable (stem <+: key → ¬ op.Writes))
  | .memorySweep => inferInstanceAs (Decidable (¬ s.OverBudget))
  | .destroyAll => instDecidableFalse
  | .setClock now => inferInstanceAs (Decidable (s.now ≤ now))
  | .check _ | .expireSweep | .note _ => instDecidableTrue

/-- The operation takes the lock off the item under a key. -/
def Operation.Unlocks (key : Bytes) : Operation → Prop
  | onKey target op => op = .unlock ∧ target = key
  | onStem stem op => op = .unlock ∧ stem <+: key
  | _ => False

/-- Every operation of the run spares the key, in the store it comes to. -/
def Store.Spared (key : Bytes) (s : Store) : List Operation → Prop
  | [] => True
  | op :: ops => op.Spares key s ∧ (op.run s).2.Spared key ops

instance Store.decidableSpared (key : Bytes) :
    (s : Store) → (ops : List Operation) → Decidable (s.Spared key ops)
  | _, [] => instDecidableTrue
  | s, op :: ops =>
    have := decidableSpared key (op.run s).2 ops
    inferInstanceAs (Decidable (op.Spares key s ∧ (op.run s).2.Spared key ops))

section Sparing

variable {s : Store} {key : Bytes} {T : Tenure} {ops : List Operation}

theorem Operation.Spares.now_le_clock {op : Operation} (h : op.Spares key s) :
    s.now ≤ op.clock s := by
  cases op with
  | setClock now => exact h
  | _ => exact Int.le_refl _

/-- No time is taken back by a run that spares the key. -/
theorem Store.Spared.now_le (hs : s.Sound) (hops : s.Spared key ops) :
    s.now ≤ (s.after ops).now := by
  induction ops generalizing s with
  | nil => exact Int.le_refl _
  | cons op ops ih =>
    have hfirst := hops.1.now_le_clock
    rw [← Operation.now_run hs.arranged op] at hfirst
    exact Int.le_trans hfirst (ih (Operation.upholds_run hs op).sound hops.2)

/-- **An operation that spares the key leaves it to any tenure** that items
keep when they are used, and when they are unlocked if that is what it
does, while items can tell their age. -/
theorem Operation.Spares.lodges {op : Operation} (h : op.Spares key s)
    (htells : T.Tells (op.clock s))
    (hused : ∀ item now, T.Fits item → T.Fits (item.touch now))
    (hunlocked : op.Unlocks key →
      ∀ item now, T.Fits item → T.Fits { item.touch now with lock := 0 }) :
    op.Lodges key T s := by
  cases op with
  | onKey target op =>
    intro hk
    cases op with
    | get => exact ⟨_, rfl, Plan.lodges_read hused⟩
    | unlock => exact ⟨_, rfl, Plan.lodges_unlock (hunlocked ⟨rfl, hk⟩)⟩
    | ask a => exact ⟨_, rfl, Plan.lodges_of_keep fun _ _ _ => rfl⟩
    | _ => exact absurd trivial (h hk)
  | onStem stem op =>
    intro hk
    cases op with
    | get => exact ⟨id, Plan.lodges_read hused⟩
    | unlock => exact ⟨id, Plan.lodges_unlock (hunlocked ⟨rfl, hk⟩)⟩
    | count => exact ⟨id, Plan.lodges_of_keep fun _ _ _ => rfl⟩
    | keys => exact ⟨id, Plan.lodges_of_keep fun _ _ _ => rfl⟩
    | _ => exact absurd trivial (h hk)
  | setClock now => exact ⟨h, htells⟩
  | _ => exact h

/-- **A run that spares the key keeps it lodged**, if items can still tell
their age in the end. -/
theorem Store.Lodges.after (hs : s.Sound) (h : s.Lodges key T) (hops : s.Spared key ops)
    (hlast : T.Tells (s.after ops).now)
    (hused : ∀ item now, T.Fits item → T.Fits (item.touch now))
    (hunlocked : ∀ op ∈ ops, op.Unlocks key →
      ∀ item now, T.Fits item → T.Fits { item.touch now with lock := 0 }) :
    (s.after ops).Lodges key T := by
  induction ops generalizing s with
  | nil => exact h
  | cons op ops ih =>
    have hs' : (op.run s).2.Sound := (Operation.upholds_run hs op).sound
    have hfirst : s.now ≤ op.clock s := hops.1.now_le_clock
    have hrest : op.clock s ≤ (s.after (op :: ops)).now := by
      rw [← Operation.now_run hs.arranged op]
      exact Store.Spared.now_le hs' hops.2
    have htells : T.Tells (op.clock s) := h.tells.between hlast hfirst hrest
    have hlodges := hops.1.lodges htells hused (hunlocked op List.mem_cons_self)
    exact ih hs' (Operation.lodges_run hs.arranged h hlodges) hops.2 hlast
      fun later hin => hunlocked later (List.mem_cons_of_mem op hin)

end Sparing

/-! ## The law of lifetimes -/

/-- **A value is read as it came until its deadline, and never after.** In a
store that some run leads to, let storing data under a key succeed; let any
run follow that spares the key, and let the time that passes fit in a
signed word. Then reading the key gives the data while less time has passed
than was granted, or if it was granted for ever, and finds nothing
otherwise, in whatever form the data was kept. -/
theorem value_lives_until_deadline {s : Store} (hs : s.Reachable) {key data : Bytes} {ttl : Int}
    {shown : Value} (hdata : Compression.Restores data)
    (hset : (s.set key data ttl).1 = .ok shown) {ops : List Operation}
    (hops : (s.set key data ttl).2.Spared key ops)
    (hrange : FitsInt64 (((s.set key data ttl).2.after ops).now - s.now)) :
    let t := (s.set key data ttl).2.after ops
    let granted := min ttl s.limits.maxItemTtl
    (t.get key).1 =
      if granted ≤ 0 ∨ t.now - s.now < granted then .ok (.plain data) else .error .notFound := by
  intro t granted
  have hstored : (s.set key data ttl).2.Sound := (Store.upholds_set hs.sound key data ttl).sound
  have hlodges : t.Lodges key (s.deposit data ttl).tenure := by
    refine (Store.lodges_set hs.sound.arranged hset).after hstored hops hrange ?_ fun _ _ _ => ?_
    · exact fun _ _ hholds => ⟨hholds.value, hholds.touchedAt, hholds.ttl, hholds.lock⟩
    · exact fun _ _ hholds => ⟨hholds.value, hholds.touchedAt, hholds.ttl, rfl⟩
  have hshown : ∀ item, (s.deposit data ttl).tenure.Fits item →
      Store.expose item.value = .ok (.plain data) :=
    fun item hholds => hholds.value ▸ s.expose_encode hdata
  rw [hlodges.get_fst hshown]
  -- the deposit was made at the clock of `s`, which has moved on since
  have hover : (s.deposit data ttl).tenure.Over t.now ↔
      ¬ (granted ≤ 0 ∨ t.now - s.now < granted) := by
    rw [not_or, Int.not_le, Int.not_lt]
    rfl
  by_cases h : granted ≤ 0 ∨ t.now - s.now < granted
  · rw [if_pos h, if_neg fun ho => hover.1 ho h]
  · rw [if_neg h, if_pos (hover.2 h)]

/-- A store that compresses what is longer than eight bytes, with a
neighbour of the key `[97, 98]` on the way to it and one beyond it. -/
def Store.squeezing : Store :=
  (Store.empty { compressAbove := 8, maxItemTtl := 60 } 100).after
    [.onKey [97] (.set [1] 5), .onKey [97, 98, 99] (.set [2] 3)]

theorem squeezed_value_lives_until_deadline :
    Store.squeezing.Reachable ∧
      (Store.squeezing.encode (List.replicate 32 7)).encoding = .compressed ∧
      (let stored := (Store.squeezing.set [97, 98] (List.replicate 32 7) 90).2
       let before : List Operation :=
        [.onStem [97] .get, .setClock 104, .onStem [97, 98] .unlock, .expireSweep,
          .onKey [97] .del, .onStem [97, 98, 99] .del, .memorySweep, .setClock 159]
       ((stored.after before).get [97, 98]).1 = .ok (.plain (List.replicate 32 7)) ∧
         ((stored.after (before ++ [.setClock 160])).get [97, 98]).1 = .error .notFound) := by
  have hs : Store.squeezing.Reachable := Store.Reached.after (.empty _ 100) fun _ _ => trivial
  have hdata : Compression.Restores (List.replicate 32 7) := by decide +kernel
  have hset : (Store.squeezing.set [97, 98] (List.replicate 32 7) 90).1 =
      .ok (.plain (List.replicate 32 7)) := by decide +kernel
  refine ⟨hs, by decide +kernel, ?_, ?_⟩
  · rw [value_lives_until_deadline hs hdata hset (by decide +kernel) (by decide +kernel)]
    exact if_pos (by decide +kernel)
  · rw [value_lives_until_deadline hs hdata hset (by decide +kernel) (by decide +kernel)]
    exact if_neg (by decide +kernel)

/-- **A value can outlive its deadline** when more time passes than a signed
word holds: stored for ten seconds at the first time there is, it is read at
the last. -/
theorem value_outlives_deadline :
    let s := Store.empty {} (-9223372036854775808)
    let ops : List Operation := [.setClock 9223372036854775807]
    let stored := (s.set [107] [118] 10).2
    let t := stored.after ops
    s.Reachable ∧ Compression.Restores [118] ∧ (s.set [107] [118] 10).1 = .ok (.plain [118]) ∧
      stored.Spared [107] ops ∧ min 10 s.limits.maxItemTtl = 10 ∧ 10 ≤ t.now - s.now ∧
      (t.get [107]).1 = .ok (.plain [118]) :=
  ⟨.empty _ _, by decide +kernel, by decide +kernel, by decide +kernel, by decide +kernel,
    by decide +kernel, by decide +kernel⟩

end PrefixCache

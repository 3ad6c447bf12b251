import PrefixCache.Proofs.Settings.Typed
import PrefixCache.Proofs.Store.Ageing
/-!
# The longest time to live

A store cuts a time to live that it grants to the longest one, which the
settings give in whole seconds, as a signed number. When that number is
positive, what is granted is positive and not more than was asked for or
set. But a duration without a whole second leaves none, and one of `2 ^ 63`
seconds or more is read as a negative number, and no positive number of
seconds means for ever: then whatever is granted for some time lives for
ever (`granted_is_capped_or_endless`).
-/

namespace PrefixCache

/-! ## Limits along a run -/

theorem Store.limits_after {s : Store} (hs : s.Sound) (ops : List Operation) :
    (s.after ops).limits = s.limits := by
  induction ops generalizing s with
  | nil => rfl
  | cons op ops ih =>
    exact (ih (Operation.upholds_run hs op).sound).trans (Operation.limits_run hs.arranged op)

/-! ## What is granted -/

/-- The operation grants the key the time to live it asks for: it stores
under the key or starts its time over, and succeeds, or the key is a member
that it may write to. -/
inductive Operation.Allots (s : Store) (key : Bytes) (ttl : Int) : Operation → Prop
  | set {data : Bytes} {shown : Value} :
      (s.set key data ttl).1 = .ok shown → Allots s key ttl (.onKey key (.set data ttl))
  | setTtl : (s.setTtl key ttl).1 = .ok () → Allots s key ttl (.onKey key (.setTtl ttl))
  | setTtlAll {stem : Bytes} {item : Item} : stem <+: key → s.liveUnder? key = some item →
      ¬ item.Locked s.now → Allots s key ttl (.onStem stem (.setTtl ttl))

/-- The time of a live item that is not locked can be started over. -/
theorem Plan.leavesUnder_live {s : Store} {key : Bytes} {item : Item} (ttl : Int)
    (hlive : s.liveUnder? key = some item) (hfree : ¬ item.Locked s.now) :
    (Plan.live ttl).leavesUnder s key =
      some { item.restart s.now with ttl := min ttl s.limits.maxItemTtl } := by
  rw [leavesUnder_of_live _ hlive, Plan.live, Plan.unlessLocked, if_neg hfree]
  rfl

/-- **What is granted is cut to the longest time to live.** -/
theorem Operation.Allots.ttl_eq {s : Store} (hs : s.trie.Arranged) {op : Operation} {key : Bytes}
    {ttl : Int} (h : op.Allots s key ttl) :
    ∃ item, (op.run s).2.trie.find? key = some item ∧ item.ttl = min ttl s.limits.maxItemTtl := by
  cases h with
  | @set data shown hset =>
    have hover : ¬ s.OverBudget := fun hover => by
      rw [Store.set_of_overBudget hover] at hset
      cases hset
    have hfree : ¬ s.Barred key := fun hb => by
      rw [Store.set_of_barred hover hb] at hset
      cases hset
    exact ⟨_, (Store.find?_set hs hover hfree data ttl key).trans (if_pos rfl), rfl⟩
  | setTtl hset =>
    rw [Store.setTtl, ← Plan.act_live, Store.onKey_fst] at hset
    cases hlive : s.liveUnder? key with
    | none =>
      rw [hlive] at hset
      cases hset
    | some item =>
      have hfree : ¬ item.Locked s.now := fun hlocked => by
        rw [hlive] at hset
        simp only [Plan.live, Plan.unlessLocked, if_pos hlocked] at hset
        cases hset
      have hreads : (KeyOperation.setTtl ttl).reading? = some ⟨.live ttl, fun _ => .done⟩ := rfl
      refine ⟨{ item.restart s.now with ttl := min ttl s.limits.maxItemTtl }, ?_, rfl⟩
      rw [Operation.run, KeyOperation.run_eq hreads, ← Plan.leavesUnder_live ttl hlive hfree]
      exact (Store.find?_onKey hs (Plan.live ttl) key key).trans (if_pos rfl)
  | @setTtlAll stem item hstem hlive hfree =>
    have hstores : (StemOperation.setTtl ttl).Stores → ¬ s.OverBudget := by rintro ⟨⟩
    refine ⟨{ item.restart s.now with ttl := min ttl s.limits.maxItemTtl }, ?_, rfl⟩
    rw [Operation.run, StemOperation.run_eq hstores, ← Plan.leavesUnder_live ttl hlive hfree]
    exact (Store.find?_onStem hs (Plan.live ttl) stem key).trans (if_pos hstem)

/-! ## The cap -/

/-- The duration has a whole second, and a signed word holds its
seconds. -/
def CountsSeconds (millis : Nat) : Prop := 1000 ≤ millis ∧ millis < 1000 * 2 ^ 63

/-- The item lives for some time, which is no longer than was asked for and
no longer than a duration. -/
structure Item.Capped (item : Item) (ttl : Int) (millis : Nat) : Prop where
  finite : 0 < item.ttl
  asked : item.ttl ≤ ttl
  cap : 1000 * item.ttl ≤ millis

/-- The item lives for ever. -/
def Item.Endless (item : Item) : Prop := item.ttl ≤ 0 ∧ ∀ now, ¬ item.Elapsed now

/-- The seconds of a duration that is read fit in a word. -/
theorem Kind.seconds_lt {text? : Option String} {default millis : Nat}
    (h : Kind.duration.Gives text? default millis) (hdefault : default / 1000 < 2 ^ 64) :
    millis / 1000 < 2 ^ 64 := by
  cases text? with
  | none =>
    rw [Gives] at h
    rwa [h]
  | some text =>
    rcases h with ⟨_, _, _, _, _, _, hcount, _, _⟩ | ⟨count, per, _, rfl, hseconds⟩
    · omega
    · omega

/-- A duration counts seconds just when its seconds are read as a positive
number, which then is theirs. -/
theorem signedSeconds_cases {millis : Nat} (h : millis / 1000 < 2 ^ 64) :
    (CountsSeconds millis ∧ 0 < Settings.signedSeconds millis ∧
      1000 * Settings.signedSeconds millis ≤ millis) ∨
    ¬ CountsSeconds millis ∧ Settings.signedSeconds millis ≤ 0 := by
  unfold CountsSeconds Settings.signedSeconds
  by_cases hlarge : millis / 1000 < 2 ^ 63
  · rw [signed64_of_lt hlarge]
    omega
  · have hneg := signed64_neg (Nat.le_of_not_lt hlarge) h
    omega

/-- **What is granted is capped, or it lives for ever.** Take settings that
a source gives, a store with their limits after any run, and an operation
that grants a key a positive time to live. When the longest time to live
that is set counts seconds, the item under the key then lives for some
time, no longer than was asked for or set. Otherwise it lives for ever. -/
theorem granted_is_capped_or_endless {src : Source} {c : Settings}
    (hc : Settings.ofSource src = .ok c) :
    ∃ millis, Kind.duration.Gives (src.get? "max_item_ttl") 2592000000 millis ∧
      ∀ (start : Int) (ops : List Operation) (op : Operation) (key : Bytes) (ttl : Int),
        let s := (Store.empty c.storeLimits start).after ops
        op.Allots s key ttl → 0 < ttl →
          ∃ item, (op.run s).2.trie.find? key = some item ∧
            ((CountsSeconds millis ∧ item.Capped ttl millis) ∨
              (¬ CountsSeconds millis ∧ item.Endless)) := by
  obtain ⟨millis, hgives, hcap⟩ := (Settings.follows_of_ok hc).maxItemTtl
  refine ⟨millis, hgives, ?_⟩
  intro start ops op key ttl s hallots hpos
  have hs : s.Sound := (Store.Reached.after (.empty _ start) fun _ _ => trivial).sound
  have hlimit : s.limits.maxItemTtl = Settings.signedSeconds millis := by
    rw [Store.limits_after (Store.sound_empty _ _)]
    exact hcap
  obtain ⟨item, hitem, httl⟩ := hallots.ttl_eq hs.arranged
  rw [hlimit] at httl
  refine ⟨item, hitem, ?_⟩
  rcases signedSeconds_cases (Kind.seconds_lt hgives (by omega)) with ⟨hcounts, hone, hmost⟩ | ⟨hnone, hneg⟩
  · exact .inl ⟨hcounts, ⟨by omega, by omega, by omega⟩⟩
  · have hendless : item.ttl ≤ 0 := by omega
    exact .inr ⟨hnone, hendless, fun now => Item.not_elapsed_of_ttl_lt_one (by omega)⟩

/-- With a cap of a minute, a member that is granted more gets a minute. -/
theorem granted_member_is_capped :
    let src : Source := { entries := [("max_item_ttl", "1m")] }
    let c : Settings := { maxItemTtl := 60 }
    let ops : List Operation :=
      [.onKey [97] (.set [1] 5), .onKey [97, 98] (.set [2] 90), .setClock 110]
    let s := (Store.empty c.storeLimits 100).after ops
    let op : Operation := .onStem [97] (.setTtl 100)
    Settings.ofSource src = .ok c ∧ op.Allots s [97, 98] 100 ∧
      ∃ item, (op.run s).2.trie.find? [97, 98] = some item ∧ item.Capped 100 60000 := by
  intro src c ops s op
  have hc : Settings.ofSource src = .ok c := ok_of_toOption (by decide +kernel)
  have hlive : s.liveUnder? [97, 98] =
      some { value := .plain [2], createdAt := 100, touchedAt := 100, lastAccess := 100,
             ttl := 60, lock := 0 } := by
    decide +kernel
  have hallots : op.Allots s [97, 98] 100 := .setTtlAll (by decide) hlive (by decide +kernel)
  obtain ⟨millis, hgives, hgranted⟩ := granted_is_capped_or_endless hc
  specialize hgranted 100 ops op [97, 98] 100
  have hs : (Store.empty c.storeLimits 100).after ops = s := rfl
  simp only [hs] at hgranted
  have hmillis : Kind.duration.read? "1m".toList = some millis := Kind.read?_eq_some.2 hgives
  obtain rfl : 60000 = millis := Option.some.inj (Eq.trans (by decide +kernel) hmillis)
  obtain ⟨item, hitem, ⟨-, hcapped⟩ | ⟨hnone, -⟩⟩ := hgranted hallots (by decide)
  · exact ⟨hc, hallots, item, hitem, hcapped⟩
  · have hcounts : CountsSeconds 60000 := by
      unfold CountsSeconds
      omega
    exact absurd hcounts hnone

/-- **What is stored for ten seconds can live for ever**: it does so when the
longest time to live is too large for a signed word, and when it is shorter
than a second. -/
theorem stored_for_some_time_lives_for_ever :
    let immense : Settings := { maxItemTtl := -1 }
    let instant : Settings := { maxItemTtl := 0 }
    let stored (c : Settings) := (Store.empty c.storeLimits 100).set [107] [118] 10
    (Settings.ofSource { entries := [("max_item_ttl", "18446744073709551615")] } = .ok immense ∧
      (stored immense).1 = .ok (.plain [118]) ∧
      ∃ item, (stored immense).2.trie.find? [107] = some item ∧ item.Endless) ∧
    Settings.ofSource { entries := [("max_item_ttl", "999ms")] } = .ok instant ∧
      (stored instant).1 = .ok (.plain [118]) ∧
      ∃ item, (stored instant).2.trie.find? [107] = some item ∧ item.Endless := by
  intro immense instant stored
  have hendless (ttl : Int) (httl : ttl ≤ 0) : (Item.create (.plain [118]) ttl 100).Endless :=
    ⟨httl, fun now => Item.not_elapsed_of_ttl_lt_one (Int.lt_of_le_of_lt httl (by decide))⟩
  have himmense : (stored immense).2.trie.find? [107] =
      some (Item.create (.plain [118]) (-1) 100) := by
    decide +kernel
  have hinstant : (stored instant).2.trie.find? [107] =
      some (Item.create (.plain [118]) 0 100) := by
    decide +kernel
  exact ⟨⟨ok_of_toOption (by decide +kernel), by decide +kernel, _, himmense,
      hendless (-1) (by decide)⟩,
    ok_of_toOption (by decide +kernel), by decide +kernel, _, hinstant, hendless 0 (by decide)⟩

end PrefixCache

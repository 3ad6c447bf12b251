import PrefixCache.Connection.Basic
import PrefixCache.Proofs.Settings.Capping
import PrefixCache.Proofs.Store.Evicting
/-!
# Limits that are signed words

The seconds after which an unused item is stale, and the length of the
longest request, are set as unsigned words and compared as signed ones.
Below `2 ^ 63` they mean what is set: a sweep under memory pressure spares
what was used since, and a length is accepted just when it is within
bounds. From there on they are read as negative numbers: then every item
that is not locked is stale at once, and no length is accepted
(`limits_hold_until_they_wrap`).
-/

namespace PrefixCache

/-! ## Sweeping under memory pressure -/

namespace Store

variable {s : Store}

/-- A sweep under memory pressure leaves every item that is live and was
used less than some seconds ago, if a signed word holds how long ago. -/
def SparesUsed (s : Store) (seconds : Nat) : Prop :=
  ∀ key item, s.trie.find? key = some item → ¬ item.Lapsed s.now →
    FitsInt64 (s.now - item.lastAccess) → s.now - item.lastAccess < seconds →
      s.memorySweep.2.trie.find? key = some item

/-- The budget is met, or every item that is left is locked. -/
def Drained (s : Store) : Prop :=
  ¬ s.OverBudget ∨ ∀ key item, s.trie.find? key = some item → item.Locked s.now

/-- **A sweep goes on until the budget is met** or nothing is left that may
be evicted. -/
theorem memorySweep_exhausts (hs : s.Sound) :
    ¬ s.memorySweep.2.OverBudget ∨
      ∀ key item, s.memorySweep.2.trie.find? key = some item →
        ¬ Evictable s.limits s.now item := by
  have hs' : s.memorySweep.2.Sound := (upholds_memorySweep hs).sound
  have hevicted := evicted_memorySweep hs
  rcases (isShortest_inspected s.limits s.now s.counters.memoryUsed (s.trie.search [])).enough with
    henough | hall
  · left
    have hmemory := hevicted.memory
    rw [OverBudget, (sameGround_memorySweep s).limits]
    omega
  · refine .inr fun key item hf hev => ?_
    have hmem : (key, item) ∈ s.memorySweep.2.trie.search [] :=
      (Trie.mem_search hs'.arranged).2 ⟨List.nil_prefix, hf⟩
    rw [hevicted.left_eq, hall, List.drop_length, List.append_nil, List.mem_filter] at hmem
    simp [evictable, hev] at hmem

/-- What was used since items are stale is spared. -/
theorem sparesUsed (hs : s.Sound) {seconds : Nat} (hstale : s.limits.staleAfter = seconds) :
    s.SparesUsed seconds := by
  intro key item hf hlive hfits hused
  refine find?_memorySweep hs hf fun hev => hev.2.elim hlive fun hstaleItem => ?_
  have hidle : item.idle s.now = s.now - item.lastAccess := Item.idle_of_fits hfits
  omega

/-- When an item is stale before it is used, nothing but a lock spares
it. -/
theorem drained_memorySweep (hs : s.Sound) (htimely : s.Timely) (hstale : s.limits.staleAfter ≤ 0) :
    s.memorySweep.2.Drained := by
  refine (memorySweep_exhausts hs).imp id fun hspared key item hf => ?_
  have hbefore : s.trie.find? key = some item := find?_of_memorySweep hs.arranged hf
  have hpast : item.lastAccess ≤ s.now := (htimely.items key item hbefore).past
  have hrange : item.InRange s.now := htimely.inRange hbefore (Int.le_refl _) htimely.clock
  have hidle : item.idle s.now = s.now - item.lastAccess := Item.idle_of_fits hrange.idle
  rw [(sameGround_memorySweep s).now]
  by_contra hfree
  exact hspared key item hf ⟨hfree, .inr (by omega)⟩

end Store

/-! ## Lengths of requests -/

/-- A connection that awaits the length of a request accepts those with a
property, and then awaits a body of that length. It ends with any other. -/
def ConnectionLimits.Accept (limits : ConnectionLimits) (Fits : Int → Prop) : Prop :=
  ∀ (c : Connection) (h : Hub) (m : Moment) (word : Bytes) (rest : ReadBuffer),
    c.limits = limits → c.phase = .awaitingLength →
    c.buffer.cut? Connection.lengthWidth = some (word, rest) →
    let length := Bytes.signedValue Connection.lengthWidth word
    (Fits length → c.turn h m =
      .goesOn { c with phase := .awaitingBody length.toNat, buffer := rest } h) ∧
    (¬ Fits length → c.turn h m = .ends (.error (.badLength length limits.maxRequest)) h)

/-- **Lengths are compared with a signed word.** -/
theorem ConnectionLimits.accept_of_iff {limits : ConnectionLimits} {Fits : Int → Prop}
    (h : ∀ length, Fits length ↔ 2 ≤ length ∧ length ≤ signed64 limits.maxRequest) :
    limits.Accept Fits := by
  rintro c hub m word rest rfl hphase hcut length
  have hturn : c.turn hub m = c.takeLength hub length rest := by
    simp only [Connection.turn, hphase, hcut, length]
  have hallowed : Fits length ↔ c.LengthAllowed length := h length
  rw [hturn, hallowed]
  exact ⟨fun hin => if_pos hin, fun hout => if_neg hout⟩

/-! ## Both limits -/

/-- A size that is read fits in a word. -/
theorem Kind.size_lt {text? : Option String} {default n : Nat}
    (h : Kind.size.Gives text? default n) (hdefault : default < 2 ^ 64) : n < 2 ^ 64 := by
  cases text? with
  | none => exact Nat.lt_of_le_of_lt (Nat.le_of_eq h) hdefault
  | some text =>
    obtain ⟨_, _, _, _, hlt⟩ := h
    exact hlt

/-- **Limits hold until they wrap.** Take settings that a source gives. As
long as the seconds after which items are stale are less than `2 ^ 63`, a
sweep under memory pressure spares every live item that was used since;
from there on it goes on, as long as the clock does not go back, until the
budget is met or nothing is left but locked items. As long as the longest
request is shorter than `2 ^ 63`, just the lengths from two up to it are
accepted; from there on none is. -/
theorem limits_hold_until_they_wrap {src : Source} {c : Settings}
    (hc : Settings.ofSource src = .ok c) :
    (Kind.duration.Gives (src.get? "gc_ratio") 3600000 c.staleAfter ∧
      (c.staleAfter / 1000 < 2 ^ 63 → ∀ s : Store, s.Reachable → s.limits = c.storeLimits →
        s.SparesUsed (c.staleAfter / 1000)) ∧
      (2 ^ 63 ≤ c.staleAfter / 1000 → ∀ s : Store, (s.Aged fun _ => True) →
        s.limits = c.storeLimits → s.memorySweep.2.Drained)) ∧
    Kind.size.Gives (src.get? "max_request_size") (4 * 1024 * 1024) c.maxRequest ∧
      (c.maxRequest < 2 ^ 63 →
        c.connectionLimits.Accept fun length => 2 ≤ length ∧ length ≤ c.maxRequest) ∧
      (2 ^ 63 ≤ c.maxRequest → c.connectionLimits.Accept fun _ => False) := by
  have hfollows := Settings.follows_of_ok hc
  have hstale : c.storeLimits.staleAfter = signed64 (c.staleAfter / 1000) := by
    simp only [Settings.storeLimits, Settings.signedSeconds]
  have hseconds : c.staleAfter / 1000 < 2 ^ 64 :=
    Kind.seconds_lt hfollows.staleAfter (by simp only [Settings.builtIn]; omega)
  have hsize : c.maxRequest < 2 ^ 64 :=
    Kind.size_lt hfollows.maxRequest (by simp only [Settings.builtIn]; omega)
  refine ⟨⟨hfollows.staleAfter, fun hsmall s hs hlimits => ?_, fun hlarge s hs hlimits => ?_⟩,
    hfollows.maxRequest, fun hsmall => ?_, fun hlarge => ?_⟩
  · refine Store.sparesUsed hs.sound ?_
    rw [hlimits, hstale, signed64_of_lt hsmall]
  · refine Store.drained_memorySweep hs.sound hs.timely ?_
    rw [hlimits, hstale]
    exact Int.le_of_lt (signed64_neg hlarge hseconds)
  · refine ConnectionLimits.accept_of_iff fun length => ?_
    rw [Settings.connectionLimits, signed64_of_lt hsmall]
  · refine ConnectionLimits.accept_of_iff fun length => iff_of_false id fun hwithin => ?_
    have hneg := signed64_neg hlarge hsize
    have hmost : length ≤ signed64 c.maxRequest := hwithin.2
    omega

/-- With items stale after a minute, a sweep of a store that is over its
budget spares the one that was used a quarter of a minute ago. With
requests of 64 bytes, longer ones are not accepted. -/
theorem used_item_is_spared :
    let src : Source :=
      { entries := [("gc_ratio", "1m"), ("max_request_size", "64"), ("max_memory", "100")] }
    let c : Settings := { staleAfter := 60000, maxRequest := 64, maxMemory := 100 }
    let ops : List Operation :=
      [.onKey [97] (.set [1] 0), .onKey [98] (.set [2] 0), .setClock 150, .onKey [98] .get,
        .setClock 165]
    let s := (Store.empty c.storeLimits 100).after ops
    Settings.ofSource src = .ok c ∧ s.OverBudget ∧
      s.memorySweep.2.trie.find? [97] = none ∧ (s.memorySweep.2.trie.find? [98]).isSome ∧
      c.connectionLimits.Accept fun length => 2 ≤ length ∧ length ≤ 64 := by
  intro src c ops s
  have hc : Settings.ofSource src = .ok c := ok_of_toOption (by decide +kernel)
  have hs : s.Reachable := Store.Reached.after (.empty _ 100) fun _ _ => trivial
  have hlimits : s.limits = c.storeLimits := Store.limits_after (Store.sound_empty _ 100) ops
  have hitem : s.trie.find? [98] =
      some { value := .plain [2], createdAt := 100, touchedAt := 100, lastAccess := 150,
             ttl := 0, lock := 0 } := by
    decide +kernel
  obtain ⟨⟨-, hspares, -⟩, -, haccepts, -⟩ := limits_hold_until_they_wrap hc
  have hkept := hspares (by decide) s hs hlimits _ _ hitem (by decide +kernel) (by decide +kernel)
    (by decide +kernel)
  exact ⟨hc, by decide +kernel, by decide +kernel, by rw [hkept]; rfl, haccepts (by decide)⟩

/-- **Limits of `2 ^ 64 - 1` let nothing through**: a sweep destroys what was
stored in the same second, and a connection refuses the shortest request. -/
theorem largest_limits_let_nothing_through :
    let src : Source :=
      { entries := [("gc_ratio", "18446744073709551615"),
          ("max_request_size", "18446744073709551615"), ("max_memory", "1")] }
    let c : Settings :=
      { staleAfter := 18446744073709551615000, maxRequest := 18446744073709551615, maxMemory := 1 }
    let s := (Store.empty c.storeLimits 100).after [.onKey [107] (.set [118] 0)]
    Settings.ofSource src = .ok c ∧
      s.trie.find? [107] = some (Item.create (.plain [118]) 0 100) ∧ s.now = 100 ∧
      s.memorySweep.2.trie.find? [107] = none ∧
      ∀ (client : ClientId) (h : Hub) (m : Moment),
        ({ client, limits := c.connectionLimits,
           buffer := ReadBuffer.fill {} [2, 0, 0, 0] } : Connection).turn h m =
          .ends (.error (.badLength 2 18446744073709551615)) h := by
  intro src c s
  refine ⟨ok_of_toOption (by decide +kernel), by decide +kernel, by decide +kernel,
    by decide +kernel, fun client h m => ?_⟩
  have hmost : signed64 c.maxRequest = -1 := by decide
  have hrefuses : c.connectionLimits.Accept fun _ => False := by
    refine ConnectionLimits.accept_of_iff fun length => iff_of_false id fun hwithin => ?_
    have hbound : length ≤ signed64 c.maxRequest := hwithin.2
    omega
  obtain ⟨rest, hcut⟩ : ∃ rest, (ReadBuffer.fill {} [2, 0, 0, 0]).cut? Connection.lengthWidth =
      some ([2, 0, 0, 0], rest) := ⟨_, rfl⟩
  have hlength : Bytes.signedValue Connection.lengthWidth [2, 0, 0, 0] = 2 := by decide
  have hends := (hrefuses { client, limits := c.connectionLimits, buffer := _ } h m [2, 0, 0, 0] rest
    rfl rfl hcut).2 id
  rwa [hlength] at hends

end PrefixCache

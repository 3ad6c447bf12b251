import PrefixCache.Proofs.Store.Keyed
import PrefixCache.Proofs.Store.Values
/-!
# Reading and adding

A read shows the bytes of a value in whatever form it is kept, and adding
takes a value for a number without looking into a compressed one. So the
two agree on every value that is not kept compressed: what reads as a
number is added to, and reads as the sum from then on; anything else is
refused and stays. A compressed value is refused too, also when the bytes
that are read spell a number (`adding_sees_what_is_read`).
-/

namespace PrefixCache

/-! ## Plans at one item -/

namespace Plan

variable {limits : StoreLimits} {now : Int} {item : Item}

theorem unlessLocked_of_free {β : Type} (p : Plan β) (h : ¬ item.Locked now) :
    p.unlessLocked limits now item = p limits now item :=
  if_neg h

theorem read_of_expose {v : Value} (h : Store.expose item.value = .ok v) :
    read limits now item = (.ok v, .revise (item.touch now)) := by
  simp only [read, h, Except.mapError]

theorem add_of_number {n : Int64} (hfree : ¬ item.Locked now)
    (hn : item.value.asNumber? = some n) (delta : Int64) :
    add delta limits now item =
      (.ok (n + delta), .revise { item.touch now with value := .number (n + delta) }) := by
  rw [add, unlessLocked_of_free _ hfree, hn]

theorem add_of_other (hfree : ¬ item.Locked now) (hn : item.value.asNumber? = none)
    (delta : Int64) : add delta limits now item = (.error .notANumber, .keep) := by
  rw [add, unlessLocked_of_free _ hfree, hn]

end Plan

/-! ## Reading a key -/

namespace Store

variable {s : Store} {key : Bytes} {v shown : Value} {item : Item}

/-- **What is exposed is not compressed.** -/
theorem encoding_of_expose (h : expose v = .ok shown) : shown.encoding ≠ .compressed := by
  cases v with
  | plain data => cases h; exact nofun
  | number n => cases h; exact nofun
  | compressed packed =>
    rw [expose] at h
    cases hr : Compression.restore packed with
    | error e => rw [hr] at h; cases h
    | ok data => rw [hr] at h; cases h; exact nofun

/-- What a read gives is exposed. -/
theorem expose_of_read {limits : StoreLimits} {now : Int} {item : Item}
    (h : (Plan.read limits now item).1 = .ok shown) : expose item.value = .ok shown := by
  simp only [Plan.read] at h
  cases hv : expose item.value with
  | error e => rw [hv] at h; cases h
  | ok v => rw [hv] at h; cases h; rfl

/-- What a key gives is the exposed value of the live item under it. -/
theorem expose_of_get (h : (s.get key).1 = .ok shown) :
    ∃ item, s.liveUnder? key = some item ∧ expose item.value = .ok shown := by
  rw [get, ← Plan.act_read, onKey_fst] at h
  cases hl : s.liveUnder? key with
  | none => rw [hl] at h; cases h
  | some item => rw [hl] at h; exact ⟨item, rfl, expose_of_read h⟩

/-- And a live item whose value can be read is read. -/
theorem get_of_live {item : Item} (hlive : s.liveUnder? key = some item)
    (hv : expose item.value = .ok shown) : (s.get key).1 = .ok shown := by
  rw [get, ← Plan.act_read, onKey_fst, hlive]
  simp only [Plan.read, hv, Except.mapError]

/-! ## Adding to a live item -/

/-- A number is added to, and lives on as the sum. -/
theorem add_of_live_number (hs : s.trie.Arranged) (hlive : s.liveUnder? key = some item)
    (hfree : ¬ item.Locked s.now) {n : Int64} (hn : item.value.asNumber? = some n)
    (delta : Int64) :
    (s.add key delta).1 = .ok (n + delta) ∧
      (s.add key delta).2.liveUnder? key =
        some { item.touch s.now with value := .number (n + delta) } := by
  have hplan : Plan.add delta s.limits s.now item = _ := Plan.add_of_number hfree hn delta
  rw [add_of_some hlive]
  refine ⟨?_, liveUnder?_eq_some.2 ⟨?_, ?_⟩⟩
  · rw [onKey_fst, hlive]
    exact congrArg Prod.fst hplan
  · rw [find?_onKey hs, if_pos rfl, Plan.leavesUnder_of_live _ hlive, hplan]
    rfl
  · -- the sum keeps the times of the item and its lock
    rw [(sameGround_onKey s _ key).now]
    exact (liveUnder?_eq_some.1 hlive).2

/-- Anything else is refused and stays. -/
theorem add_of_live_other (hlive : s.liveUnder? key = some item) (hfree : ¬ item.Locked s.now)
    (hn : item.value.asNumber? = none) (delta : Int64) :
    s.add key delta = (.error .notANumber, s) := by
  obtain ⟨id, hf, hitem⟩ := Option.bind_eq_some_iff.1 hlive
  rw [add_of_some hlive, onKey_of_live hf hitem, Plan.act, Plan.add_of_other hfree hn]
  rfl

end Store

/-! ## What reads as a number -/

/-- The value reads as a number: it is a counter, or bytes that spell the
number. -/
def Value.Spells (v : Value) (n : Int64) : Prop :=
  v = .number n ∨ ∃ data, v = .plain data ∧ Value.integer? data = some n

/-- **A value that is not kept compressed is taken for the number that it
reads as**, and for none if it reads as none. -/
theorem Value.asNumber?_eq_some_iff {v shown : Value} (hv : v.encoding ≠ .compressed)
    (hshown : Store.expose v = .ok shown) {n : Int64} :
    v.asNumber? = some n ↔ shown.Spells n := by
  cases v with
  | compressed packed => exact absurd rfl hv
  | plain data =>
    obtain rfl := Except.ok.inj hshown
    simp [Value.asNumber?, Value.Spells]
  | number m =>
    obtain rfl := Except.ok.inj hshown
    simp [Value.asNumber?, Value.Spells]

/-- One that is kept compressed is never taken for a number. -/
theorem Value.asNumber?_of_compressed {v : Value} (hv : v.encoding = .compressed) :
    v.asNumber? = none := by
  cases v with
  | compressed packed => rfl
  | _ => cases hv

/-- **Adding sees what is read, unless it is kept compressed.** In a store
that some run leads to, whose data survives compression, take an item that
has not lapsed and is not locked. Its key can be read. If the value is not
kept compressed and reads as a number, adding answers the sum, which wraps
around, and the key reads as the sum afterwards. If it reads as anything
else, or is kept compressed, adding is refused as not a number and the
store stays as it is. -/
theorem adding_sees_what_is_read {s : Store} (hs : s.Reached Operation.Restores) {key : Bytes}
    {item : Item} (hf : s.trie.find? key = some item) (hlive : ¬ item.Lapsed s.now)
    (hfree : ¬ item.Locked s.now) (delta : Int64) :
    ∃ shown, (s.get key).1 = .ok shown ∧ shown.encoding ≠ .compressed ∧
      (item.value.encoding ≠ .compressed → ∀ n, shown.Spells n →
        (s.add key delta).1 = .ok (n + delta) ∧
          ((s.add key delta).2.get key).1 = .ok (.number (n + delta))) ∧
      ((∀ n, ¬ shown.Spells n) ∨ item.value.encoding = .compressed →
        s.add key delta = (.error .notANumber, s)) := by
  have hunder : s.liveUnder? key = some item := Store.liveUnder?_eq_some.2 ⟨hf, hlive⟩
  obtain ⟨shown, hshown⟩ := hs.legible.of_find? hf
  refine ⟨shown, Store.get_of_live hunder hshown, Store.encoding_of_expose hshown, ?_, ?_⟩
  · intro hv n hn
    have hnumber := (Value.asNumber?_eq_some_iff hv hshown).2 hn
    obtain ⟨hsum, hnext⟩ := Store.add_of_live_number hs.sound.arranged hunder hfree hnumber delta
    exact ⟨hsum, Store.get_of_live hnext rfl⟩
  · intro h
    refine Store.add_of_live_other hunder hfree ?_ delta
    by_cases hv : item.value.encoding = .compressed
    · exact Value.asNumber?_of_compressed hv
    · have hother := h.resolve_right hv
      refine Option.eq_none_iff_forall_ne_some.2 fun n hn => ?_
      exact hother n ((Value.asNumber?_eq_some_iff hv hshown).1 hn)

/-- A short number in digits, with a plus sign and a leading zero. -/
def Item.spelled : Item := Item.create (.plain [43, 48, 52, 49]) (-1) 100

/-- A store that holds it, and compresses what is longer than eight
bytes. -/
def Store.spelling : Store :=
  (Store.empty { compressAbove := 8 } 100).after [.onKey [97] (.set [43, 48, 52, 49] (-1))]

theorem spelled_number_is_added_to :
    Store.spelling.Reached Operation.Restores ∧
      Store.spelling.trie.find? [97] = some Item.spelled ∧
      (Store.spelling.get [97]).1 = .ok (.plain [43, 48, 52, 49]) ∧
      (Store.spelling.add [97] 1).1 = .ok 42 ∧
      ((Store.spelling.add [97] 1).2.get [97]).1 = .ok (.number 42) := by
  have hs : Store.spelling.Reached Operation.Restores :=
    Store.Reached.after (.empty _ 100) (by decide +kernel)
  have hf : Store.spelling.trie.find? [97] = some Item.spelled := by decide
  have hread : (Store.spelling.get [97]).1 = .ok (.plain [43, 48, 52, 49]) := by decide +kernel
  obtain ⟨shown, hshown, -, hadds, -⟩ :=
    adding_sees_what_is_read hs hf (by decide) (by decide) 1
  obtain rfl := Except.ok.inj (hread.symm.trans hshown)
  obtain ⟨hsum, hnext⟩ := hadds (by decide) 41 (.inr ⟨_, rfl, by decide +kernel⟩)
  exact ⟨hs, hf, hread, hsum, hnext⟩

/-- The number seven with leading zeros, long enough to be compressed. -/
def Bytes.padded : Bytes := List.replicate 32 48 ++ [55]

/-- A store that keeps it compressed. -/
def Store.padding : Store :=
  (Store.empty { compressAbove := 8 } 100).after [.onKey [97] (.set Bytes.padded (-1))]

/-- **A number that is kept compressed is read but not added to.** -/
theorem compressed_number_is_not_added_to :
    Store.padding.Reached Operation.Restores ∧
      (∃ item, Store.padding.trie.find? [97] = some item ∧ ¬ item.Lapsed Store.padding.now ∧
        ¬ item.Locked Store.padding.now) ∧
      (Store.padding.get [97]).1 = .ok (.plain Bytes.padded) ∧
      Value.integer? Bytes.padded = some 7 ∧
      (Store.padding.add [97] 1).1 ≠ .ok 8 ∧
      (Store.padding.add [97] 1).1 = .error .notANumber := by
  have hs : Store.padding.Reached Operation.Restores :=
    Store.Reached.after (.empty _ 100) (by decide +kernel)
  have hadd : (Store.padding.add [97] 1).1 = .error .notANumber := by decide +kernel
  refine ⟨hs, ?_, by decide +kernel, by decide +kernel, hadd ▸ nofun, hadd⟩
  have hsome : (Store.padding.trie.find? [97]).isSome = true := by decide +kernel
  obtain ⟨item, hitem⟩ := Option.isSome_iff_exists.1 hsome
  have hheld : ∀ item ∈ Store.padding.trie.find? [97], ¬ item.Lapsed Store.padding.now ∧
      ¬ item.Locked Store.padding.now := by decide +kernel
  exact ⟨item, hitem, hheld item hitem⟩

end PrefixCache

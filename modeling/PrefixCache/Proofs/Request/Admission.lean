import PrefixCache.Proofs.Request.Fields
import PrefixCache.Proofs.Request.Serving
import PrefixCache.Proofs.Store.Relocking
/-!
# What requests let into the store

A command is only for an admitted key, and brings only data in that is not
too long (`Command.within_of_ofRequest`). A key that holds an item held one
before, or an operation was for it (`Operation.held_of_run`). So under the
limits of its requests a store stays within them: every key that holds an
item is admitted, and every value is a number or shows data that is not
too long (`Store.Reached.within`).
-/

namespace PrefixCache

/-! ## Commands -/

/-- The key an operation on a key is for. -/
def Operation.key? : Operation → Option Bytes
  | onKey key _ => some key
  | _ => none

/-- The operation is for an admitted key, or for no single one, and what it
brings in is not too long. -/
structure Operation.Within (fields : FieldLimits) (op : Operation) : Prop where
  key : ∀ key ∈ op.key?, fields.Admits key
  data : ∀ data ∈ op.data?, data.length ≤ fields.maxValue

theorem Operation.within_onKey {fields : FieldLimits} {key : Bytes} {op : KeyOperation}
    (hkey : fields.Admits key)
    (hdata : ∀ data ∈ (onKey key op).data?, data.length ≤ fields.maxValue) :
    (onKey key op).Within fields where
  key := fun _ hsame => Option.some.inj hsame ▸ hkey
  data := hdata

namespace Command

variable {fields : FieldLimits} {payload : Bytes} {field : String} {c : Command}

theorem of_withKey {make : Bytes → Command} (h : withKey fields payload make = .ok c) :
    ∃ key, fields.Admits key ∧ c = make key := by
  unfold withKey at h
  cases hkey : fields.key payload with
  | error e => rw [hkey] at h; cases h
  | ok key =>
    rw [hkey] at h
    exact ⟨key, (FieldLimits.key_eq_ok.1 hkey).1, (Except.ok.inj h).symm⟩

theorem of_withNumber {make : Bytes → Int64 → Command}
    (h : withNumber fields payload field make = .ok c) :
    ∃ key n, fields.Admits key ∧ c = make key n := by
  unfold withNumber at h
  cases hread : fields.keyAndField payload field with
  | error e => rw [hread] at h; cases h
  | ok parts =>
    rw [hread] at h
    simp only at h
    cases hn : Value.integer? parts.2 with
    | none => rw [hn] at h; cases h
    | some n =>
      rw [hn] at h
      exact ⟨parts.1, n, (FieldLimits.keyAndField_eq_ok.1 hread).1, (Except.ok.inj h).symm⟩

theorem of_withAttribute (h : withAttribute fields payload = .ok c) :
    ∃ key a, fields.Admits key ∧ c = .ask key a := by
  unfold withAttribute at h
  cases hread : fields.keyAndField payload "field" with
  | error e => rw [hread] at h; cases h
  | ok parts =>
    rw [hread] at h
    simp only at h
    cases ha : Attribute.ofField? parts.2 with
    | none => rw [ha] at h; cases h
    | some a =>
      rw [ha] at h
      exact ⟨parts.1, a, (FieldLimits.keyAndField_eq_ok.1 hread).1, (Except.ok.inj h).symm⟩

/-- **A command stays within the limits of its fields.** -/
theorem within_of_ofRequest {r : Request} (h : ofRequest fields r = .ok c) {op : Operation}
    (hop : c.operation? = some op) : op.Within fields := by
  obtain ⟨opcode, payload⟩ := r
  cases opcode with
  | set =>
    simp only [ofRequest] at h
    cases hread : fields.ttlKeyValue payload with
    | error e => rw [hread] at h; cases h
    | ok parts =>
      obtain ⟨ttl, key, value⟩ := parts
      rw [hread] at h
      obtain rfl := Except.ok.inj h
      obtain rfl := Option.some.inj hop
      obtain ⟨-, -, -, hkey, hlength, -⟩ := FieldLimits.ttlKeyValue_eq_ok.1 hread
      exact Operation.within_onKey hkey fun data hdata => Option.some.inj hdata ▸ hlength
  | allSet =>
    simp only [ofRequest] at h
    cases hread : fields.keyAndValue payload with
    | error e => rw [hread] at h; cases h
    | ok parts =>
      obtain ⟨stem, value⟩ := parts
      rw [hread] at h
      obtain rfl := Except.ok.inj h
      obtain rfl := Option.some.inj hop
      obtain ⟨-, hlength, -⟩ := FieldLimits.keyAndValue_eq_ok.1 hread
      exact ⟨nofun, fun data hdata => Option.some.inj hdata ▸ hlength⟩
  | get | del | inc | dec | unlock =>
    obtain ⟨key, hkey, rfl⟩ := of_withKey h
    obtain rfl := Option.some.inj hop
    exact Operation.within_onKey hkey nofun
  | ttl | lock =>
    obtain ⟨key, n, hkey, rfl⟩ := of_withNumber h
    obtain rfl := Option.some.inj hop
    exact Operation.within_onKey hkey nofun
  | ask =>
    obtain ⟨key, a, hkey, rfl⟩ := of_withAttribute h
    obtain rfl := Option.some.inj hop
    exact Operation.within_onKey hkey nofun
  | allGet | allDel | allInc | allDec | allUnlock | count | keys =>
    obtain ⟨stem, -, rfl⟩ := of_withKey h
    obtain rfl := Option.some.inj hop
    exact ⟨nofun, nofun⟩
  | allTtl | allLock =>
    obtain ⟨stem, n, -, rfl⟩ := of_withNumber h
    obtain rfl := Option.some.inj hop
    exact ⟨nofun, nofun⟩
  | stats | ping | finish =>
    obtain rfl := Except.ok.inj h
    cases hop

/-- A body that is a command is a request that is one. -/
theorem request_of_ofBody? {body : Bytes} (h : ofBody? fields body = some c) :
    ∃ r, Request.ofBody body = .ok r ∧ ofRequest fields r = .ok c := by
  obtain ⟨r, hbody, hr⟩ := Option.bind_eq_some_iff.1 h
  exact ⟨r, ok_of_toOption hbody, ok_of_toOption hr⟩

end Command

/-! ## Where items come from -/

section Held

variable {s : Store} {key : Bytes} {new : Item}

theorem Store.held_of_liveUnder? (h : s.liveUnder? key = some new) :
    ∃ old, s.trie.find? key = some old :=
  ⟨new, (liveUnder?_eq_some.1 h).1⟩

/-- **Items come in under the key of an operation only.** -/
theorem Operation.held_of_run (hs : s.trie.Arranged) {op : Operation}
    (h : (op.run s).2.trie.find? key = some new) :
    op.key? = some key ∨ ∃ old, s.trie.find? key = some old := by
  cases op with
  | onKey target op =>
    by_cases hk : target = key
    · exact .inl (congrArg some hk)
    · exact .inr ⟨new, (KeyOperation.find?_run_of_ne hs op hk).symm.trans h⟩
  | onStem stem op =>
    refine .inr ?_
    by_cases hover : op.Stores ∧ s.OverBudget
    · simp only [Operation.run, StemOperation.run_of_overBudget hover.1 hover.2] at h
      exact ⟨new, h⟩
    · simp only [Operation.run,
        StemOperation.run_eq fun hstores ho => hover ⟨hstores, ho⟩] at h
      have hfind := (Store.find?_onStem hs (op.reading s).plan stem key).symm.trans h
      split at hfind
      · obtain ⟨item, hlive, -⟩ := Option.bind_eq_some_iff.1 hfind
        exact Store.held_of_liveUnder? hlive
      · exact ⟨new, hfind⟩
  | check id =>
    have hfind := (Store.find?_liveAt hs id key).symm.trans h
    split at hfind
    · exact .inr (Store.held_of_liveUnder? hfind)
    · exact .inr ⟨new, hfind⟩
  | expireSweep =>
    exact .inr (Store.held_of_liveUnder? ((Store.find?_expireSweep hs key).symm.trans h))
  | memorySweep => exact .inr ⟨new, Store.find?_of_memorySweep hs h⟩
  | destroyAll => cases (Trie.find?_empty key).symm.trans h
  | setClock now => exact .inr ⟨new, h⟩
  | note figures => exact .inr ⟨new, h⟩

end Held

/-! ## Stores -/

/-- The value is a number, or shows data of at most so many bytes. -/
def Value.Within (most : Nat) (v : Value) : Prop :=
  (∃ n, v = .number n) ∨
    ∃ data, Store.expose v = .ok (.plain data) ∧ data.length ≤ most

theorem Value.Within.legible {most : Nat} {v : Value} (h : v.Within most) : v.Legible := by
  rcases h with ⟨n, rfl⟩ | ⟨data, hdata, -⟩
  · exact ⟨.number n, rfl⟩
  · exact ⟨.plain data, hdata⟩

namespace Store

/-- The store holds items under admitted keys only, and values that are not
too long. -/
structure Within (fields : FieldLimits) (s : Store) : Prop where
  keys {key : Bytes} {item : Item} : s.trie.find? key = some item → fields.Admits key
  values : s.Holding (Value.Within fields.maxValue)

/-- **A run within the limits leads to a store within them.** -/
theorem Reached.within {fields : FieldLimits} {s : Store}
    (h : s.Reached fun op => op.Within fields ∧ op.Restores) : s.Within fields := by
  induction h with
  | empty limits now =>
    refine ⟨fun hf => ?_, holding_of_empty rfl⟩
    cases (Trie.find?_empty _).symm.trans hf
  | @step s op hreached hop ih =>
    have hs := hreached.sound
    refine ⟨fun {key item} hf => ?_, ?_⟩
    · rcases Operation.held_of_run hs.arranged hf with hkey | ⟨old, hold⟩
      · exact hop.1.key key hkey
      · exact ih.keys hold
    · refine Operation.holding_run (fun n => .inl ⟨n, rfl⟩) hs ih.values fun data hdata => ?_
      exact .inr ⟨data, s.expose_encode (hop.2 data hdata), hop.1.data data hdata⟩

end Store

/-- The request of an event is read under the limits. -/
def Event.Under (fields : FieldLimits) : Event → Prop
  | request limits _ => limits = fields
  | _ => True

instance (fields : FieldLimits) : (e : Event) → Decidable (e.Under fields)
  | .request limits _ => inferInstanceAs (Decidable (limits = fields))
  | .expireSweep | .memorySweep | .destroyAll | .setClock _ => .isTrue trivial

/-- **Requests under limits keep a store within them.** -/
theorem Store.Served.within {fields : FieldLimits} {s : Store}
    (h : s.Served fun e => e.Under fields ∧ e.Restores) : s.Within fields := by
  refine Reached.within (h.reached (fun _ => ⟨⟨nofun, nofun⟩, nofun⟩) ?_)
  rintro e ⟨hunder, hrestores⟩ op hop
  refine ⟨?_, hrestores op hop⟩
  cases e with
  | request limits body =>
    obtain rfl : limits = fields := hunder
    obtain ⟨c, hc, hop⟩ := Option.bind_eq_some_iff.1 hop
    obtain ⟨r, -, hr⟩ := Command.request_of_ofBody? hc
    exact Command.within_of_ofRequest hr hop
  | _ =>
    obtain rfl := Option.some.inj hop
    exact ⟨nofun, nofun⟩

end PrefixCache

import PrefixCache.Item
/-!
# Fields of a request

The payload of a request is a row of fields with one space between two of
them. A key holds no space, so only the last field may; what is cut off
and what is left give the payload back (`join_cutAtSpace`).
-/

namespace PrefixCache

/-- The byte between two fields. -/
def separator : UInt8 := 0x20

/-- How long keys and values may be. -/
structure FieldLimits where
  maxKey : Nat := 512
  maxValue : Nat := 1024 * 1024
  deriving Repr, DecidableEq

/-- Why a payload has not the fields it should. -/
inductive FieldError where
  | missing (field : String)
  | emptyKey
  | keyTooLong (length most : Nat)
  | valueTooLong (length most : Nat)
  | badNumber (field : String)
  deriving Repr, DecidableEq

/-- The wording of a field error. -/
def FieldError.message : FieldError → String
  | missing field => s!"missing {field} field"
  | emptyKey => "empty key"
  | keyTooLong length most => s!"key length {length} exceeds limit of {most} bytes"
  | valueTooLong length most => s!"value length {length} exceeds limit of {most} bytes"
  | badNumber field => s!"invalid number in {field} field"

namespace FieldLimits

/-- Cuts a payload at its first space. Without a space nothing is left. -/
def cutAtSpace (payload : Bytes) : Bytes × Option Bytes :=
  match payload.dropWhile (· != separator) with
  | [] => (payload, none)
  | _ :: rest => (payload.takeWhile (· != separator), some rest)

/-- A key that may be used. -/
def checkKey (limits : FieldLimits) (key : Bytes) : Except FieldError Bytes :=
  if key = [] then .error .emptyKey
  else if limits.maxKey < key.length then .error (.keyTooLong key.length limits.maxKey)
  else .ok key

/-- A value that may be stored. -/
def checkValue (limits : FieldLimits) (value : Bytes) : Except FieldError Bytes :=
  if limits.maxValue < value.length then .error (.valueTooLong value.length limits.maxValue)
  else .ok value

/-- Reads a key. What follows a space is ignored. -/
def key (limits : FieldLimits) (payload : Bytes) : Except FieldError Bytes :=
  limits.checkKey (cutAtSpace payload).1

/-- Reads a key and what follows it, a field of the given name. -/
def keyAndField (limits : FieldLimits) (payload : Bytes) (field : String) :
    Except FieldError (Bytes × Bytes) :=
  let (front, rest) := cutAtSpace payload
  match limits.checkKey front, rest with
  | .error e, _ => .error e
  | .ok _, none => .error (.missing field)
  | .ok key, some rest => .ok (key, rest)

/-- Reads a key and a value. -/
def keyAndValue (limits : FieldLimits) (payload : Bytes) : Except FieldError (Bytes × Bytes) :=
  match limits.keyAndField payload "value" with
  | .error e => .error e
  | .ok (key, value) => (limits.checkValue value).map fun value => (key, value)

/-- Reads a time to live, a key and a value. -/
def ttlKeyValue (limits : FieldLimits) (payload : Bytes) :
    Except FieldError (Int64 × Bytes × Bytes) :=
  match cutAtSpace payload with
  | (_, none) => .error (.missing "key")
  | (front, some rest) =>
    match Value.integer? front with
    | none => .error (.badNumber "ttl")
    | some ttl => (limits.keyAndValue rest).map fun (key, value) => (ttl, key, value)

/-- **Cutting loses nothing but the space.** -/
theorem join_cutAtSpace (payload : Bytes) :
    match cutAtSpace payload with
    | (front, none) => payload = front ∧ separator ∉ front
    | (front, some rest) => payload = front ++ separator :: rest ∧ separator ∉ front := by
  have hfront : ∀ b ∈ payload.takeWhile (· != separator), b ≠ separator := by
    intro b hb
    simpa using List.all_eq_true.1 List.all_takeWhile b hb
  have hjoin := List.takeWhile_append_dropWhile (p := (· != separator)) (l := payload)
  unfold cutAtSpace
  split
  · next hcut =>
    split at hcut
    · next hdrop =>
      obtain ⟨rfl, -⟩ := Prod.mk.inj hcut
      refine ⟨rfl, fun h => ?_⟩
      rw [hdrop, List.append_nil] at hjoin
      exact hfront separator (hjoin.symm ▸ h) rfl
    · cases hcut
  · next hcut =>
    split at hcut
    · cases hcut
    · next b tail hdrop =>
      obtain ⟨rfl, hrest⟩ := Prod.mk.inj hcut
      obtain rfl := Option.some.inj hrest
      have hb : b = separator := by
        have := List.head_dropWhile_not (· != separator) (l := payload) (by simp [hdrop])
        simpa [hdrop] using this
      subst hb
      exact ⟨by rw [← hdrop, hjoin], fun h => hfront separator h rfl⟩

end FieldLimits

end PrefixCache

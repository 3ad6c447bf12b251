/-!
# Which of several counts

Of several elements of a list that are at fault, the first one is reported
(`First`); of several that say something of the same key, the last one
counts (`Latest`). Both are followed along the list from its front, the
way the lists are walked.
-/

namespace PrefixCache

variable {α : Type} {x y : α} {xs before : List α}

/-- The first element of the list with some property, and those before
it. -/
def First (Bad : α → Prop) (xs before : List α) (x : α) : Prop :=
  (∃ after, xs = before ++ x :: after) ∧ Bad x ∧ ∀ y ∈ before, ¬ Bad y

/-- What a list leaves a key at, where its elements may say texts of keys:
the text that the last element which says one of the key says, or what it
was at when none does. -/
inductive Latest (Says : α → String → String → Prop) (xs : List α) (key : String)
    (old : Option String) : Option String → Prop
  | said {before after : List α} {x : α} {text : String} :
      xs = before ++ x :: after → Says x key text →
      (∀ y ∈ after, ∀ other, ¬ Says y key other) → Latest Says xs key old (some text)
  | silent : (∀ y ∈ xs, ∀ other, ¬ Says y key other) → Latest Says xs key old old

section First

variable {Bad : α → Prop}

theorem First.mem (h : First Bad xs before x) : x ∈ xs := by
  obtain ⟨⟨after, rfl⟩, -⟩ := h
  exact List.mem_append_right before List.mem_cons_self

theorem first_nil : ¬ First Bad [] before x :=
  fun h => List.not_mem_nil h.mem

/-- When the front is at fault it is the first. -/
theorem first_cons_of_bad (h : Bad y) :
    First Bad (y :: xs) before x ↔ before = [] ∧ x = y := by
  constructor
  · rintro ⟨⟨after, hsplit⟩, -, hbefore⟩
    cases before with
    | nil => exact ⟨rfl, (List.cons.inj hsplit).1.symm⟩
    | cons z rest => exact absurd h ((List.cons.inj hsplit).1 ▸ hbefore z List.mem_cons_self)
  · rintro ⟨rfl, rfl⟩
    exact ⟨⟨xs, rfl⟩, h, fun _ => nofun⟩

/-- When the front is not at fault the first is behind it. -/
theorem first_cons_of_not_bad (h : ¬ Bad y) :
    First Bad (y :: xs) before x ↔ ∃ rest, before = y :: rest ∧ First Bad xs rest x := by
  constructor
  · rintro ⟨⟨after, hsplit⟩, hbad, hbefore⟩
    cases before with
    | nil => exact absurd ((List.cons.inj hsplit).1 ▸ hbad) h
    | cons z rest =>
      obtain ⟨rfl, hrest⟩ := List.cons.inj hsplit
      exact ⟨rest, rfl, ⟨after, hrest⟩, hbad, fun w hw => hbefore w (List.mem_cons_of_mem _ hw)⟩
  · rintro ⟨rest, rfl, ⟨after, rfl⟩, hbad, hbefore⟩
    exact ⟨⟨after, rfl⟩, hbad, List.forall_mem_cons.2 ⟨h, hbefore⟩⟩

/-- There is one first element. -/
theorem First.unique {before' : List α} {x' : α} (h : First Bad xs before x)
    (h' : First Bad xs before' x') : before = before' ∧ x = x' := by
  induction xs generalizing before before' with
  | nil => exact absurd h first_nil
  | cons y xs ih =>
    by_cases hbad : Bad y
    · obtain ⟨rfl, rfl⟩ := (first_cons_of_bad hbad).1 h
      obtain ⟨rfl, rfl⟩ := (first_cons_of_bad hbad).1 h'
      exact ⟨rfl, rfl⟩
    · obtain ⟨rest, rfl, hrest⟩ := (first_cons_of_not_bad hbad).1 h
      obtain ⟨rest', rfl, hrest'⟩ := (first_cons_of_not_bad hbad).1 h'
      obtain ⟨rfl, rfl⟩ := ih hrest hrest'
      exact ⟨rfl, rfl⟩

end First

section Latest

variable {Says : α → String → String → Prop} {key text : String} {old o : Option String}

theorem latest_nil : Latest Says [] key old o ↔ o = old := by
  constructor
  · rintro (⟨hsplit, -, -⟩ | -)
    · exact absurd hsplit.symm (List.append_ne_nil_of_right_ne_nil _ (List.cons_ne_nil _ _))
    · rfl
  · rintro rfl
    exact .silent fun _ => nofun

/-- What says nothing of the key may be left out. -/
theorem latest_cons_of_silent (h : ∀ other, ¬ Says x key other) :
    Latest Says (x :: xs) key old o ↔ Latest Says xs key old o := by
  constructor
  · rintro (@⟨before, after, y, text, hsplit, hsays, hafter⟩ | hnone)
    · cases before with
      | nil => exact absurd ((List.cons.inj hsplit).1 ▸ hsays) (h _)
      | cons z rest => exact .said (List.cons.inj hsplit).2 hsays hafter
    · exact .silent fun y hy => hnone y (List.mem_cons_of_mem _ hy)
  · rintro (@⟨before, after, y, text, rfl, hsays, hafter⟩ | hnone)
    · exact .said (List.cons_append).symm hsays hafter
    · exact .silent (List.forall_mem_cons.2 ⟨h, hnone⟩)

/-- What says something of the key may be left out once the key is at
that. -/
theorem latest_cons_of_says (h : ∀ other, Says x key other ↔ other = text) :
    Latest Says (x :: xs) key old o ↔ Latest Says xs key (some text) o := by
  constructor
  · rintro (@⟨before, after, y, said, hsplit, hsays, hafter⟩ | hnone)
    · cases before with
      | nil =>
        obtain ⟨rfl, rfl⟩ := List.cons.inj hsplit
        obtain rfl := (h said).1 hsays
        exact .silent hafter
      | cons z rest => exact .said (List.cons.inj hsplit).2 hsays hafter
    · exact absurd ((h text).2 rfl) (hnone x List.mem_cons_self text)
  · rintro (@⟨before, after, y, said, rfl, hsays, hafter⟩ | hnone)
    · exact .said (List.cons_append).symm hsays hafter
    · exact .said (List.nil_append _).symm ((h text).2 rfl) hnone

end Latest

end PrefixCache

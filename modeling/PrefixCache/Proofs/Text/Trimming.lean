import Mathlib.Data.List.TakeWhile
import PrefixCache.Text.Blank
/-!
# Trimming and cutting

A text and what is left of it without the blanks around it (`Trimmed`) are
related without saying how the blanks are taken off. Trimming gives that
text and no other (`trimmed_iff`). A text is cut at the first character
that satisfies a predicate (`cutAt?_eq_some`), and not at all when none
does.
-/

namespace PrefixCache

namespace Text

variable {cs t : List Char}

/-- All characters of the text are blank. -/
def Blank (cs : List Char) : Prop := ∀ c ∈ cs, isBlank c = true

/-- The second text is the first without the blanks around it. -/
structure Trimmed (cs t : List Char) : Prop where
  around : ∃ before after, Blank before ∧ Blank after ∧ cs = before ++ t ++ after
  first : ∀ c ∈ t.head?, isBlank c = false
  last : ∀ c ∈ t.getLast?, isBlank c = false

/-- Blanks in front of a text are taken off, and nothing else. -/
theorem dropWhile_append_of_blank {before : List Char} (hbefore : Blank before)
    (hfirst : ∀ c ∈ t.head?, isBlank c = false) :
    (before ++ t).dropWhile isBlank = t := by
  rw [List.dropWhile_append_of_pos hbefore]
  cases t with
  | nil => rfl
  | cons c rest => exact List.dropWhile_cons_of_neg (by simp [hfirst c rfl])

/-- What is left when blanks are taken off the front begins with none. -/
theorem isBlank_head?_dropWhile (cs : List Char) :
    ∀ c ∈ (cs.dropWhile isBlank).head?, isBlank c = false := by
  intro c hc
  have hhead := List.head?_dropWhile_not isBlank cs
  rw [Option.mem_def.1 hc] at hhead
  exact Bool.eq_false_iff.2 fun h => by simp [h] at hhead

theorem blank_takeWhile (cs : List Char) : Blank (cs.takeWhile isBlank) :=
  fun _ hc => List.mem_takeWhile_imp hc

theorem trimmed_trim (cs : List Char) : Trimmed cs (trim cs) := by
  -- the blanks in front go first, then those behind, which are in front of the reverse
  have hfront := isBlank_head?_dropWhile cs
  have hfrontSplit := List.takeWhile_append_dropWhile (p := isBlank) (l := cs)
  have hback := isBlank_head?_dropWhile (cs.dropWhile isBlank).reverse
  have hbackSplit :=
    List.takeWhile_append_dropWhile (p := isBlank) (l := (cs.dropWhile isBlank).reverse)
  have hblank := blank_takeWhile (cs.dropWhile isBlank).reverse
  unfold trim
  generalize (cs.dropWhile isBlank).reverse.dropWhile isBlank = kept at hback hbackSplit ⊢
  generalize (cs.dropWhile isBlank).reverse.takeWhile isBlank = after at hbackSplit hblank
  have hwhole : cs.dropWhile isBlank = kept.reverse ++ after.reverse := by
    rw [← List.reverse_append, hbackSplit, List.reverse_reverse]
  refine ⟨⟨_, after.reverse, blank_takeWhile cs, fun c hc => hblank c (List.mem_reverse.1 hc), ?_⟩,
    fun c hc => hfront c ?_, fun c hc => hback c ?_⟩
  · rw [List.append_assoc, ← hwhole, hfrontSplit]
  · rw [hwhole, List.head?_append, Option.mem_def.1 hc]
    rfl
  · rwa [List.getLast?_reverse] at hc

/-- **Trimming gives the text without the blanks around it**, and that is
one text only. -/
theorem trimmed_iff : Trimmed cs t ↔ trim cs = t := by
  constructor
  · rintro ⟨⟨before, after, hbefore, hafter, rfl⟩, hfirst, hlast⟩
    rw [trim, List.append_assoc]
    cases ht : t with
    | nil =>
      have hblank : Blank (before ++ after) := List.forall_mem_append.2 ⟨hbefore, hafter⟩
      rw [List.nil_append, List.dropWhile_eq_nil_iff.2 hblank]
      rfl
    | cons c rest =>
      rw [← ht]
      have hhead : ∀ d ∈ (t ++ after).head?, isBlank d = false := by
        subst ht
        exact hfirst
      have hreverse : ∀ d ∈ t.reverse.head?, isBlank d = false := by
        rwa [List.head?_reverse]
      have hback : Blank after.reverse := fun d hd => hafter d (List.mem_reverse.1 hd)
      rw [dropWhile_append_of_blank hbefore hhead, List.reverse_append,
        dropWhile_append_of_blank hback hreverse, List.reverse_reverse]
  · rintro rfl
    exact trimmed_trim cs

/-- Nothing is left of a text just when it is blank. -/
theorem trim_eq_nil : trim cs = [] ↔ Blank cs := by
  rw [← trimmed_iff]
  constructor
  · rintro ⟨⟨before, after, hbefore, hafter, rfl⟩, -, -⟩
    rw [List.append_nil]
    exact List.forall_mem_append.2 ⟨hbefore, hafter⟩
  · intro hblank
    exact ⟨⟨cs, [], hblank, fun _ => nofun, by simp⟩, fun _ => nofun, fun _ => nofun⟩

/-! ## Cutting -/

variable {p : Char → Bool} {front rest : List Char}

/-- **A text is cut at the first character that satisfies the predicate.** -/
theorem cutAt?_eq_some :
    cutAt? p cs = some (front, rest) ↔
      ∃ c, cs = front ++ c :: rest ∧ p c = true ∧ ∀ d ∈ front, p d = false := by
  have hsplit := List.takeWhile_append_dropWhile (p := fun c => !p c) (l := cs)
  unfold cutAt?
  constructor
  · intro h
    split at h
    · cases h
    · next c back hdrop =>
      obtain ⟨rfl, rfl⟩ := Prod.mk.inj (Option.some.inj h)
      refine ⟨c, by rw [← hdrop, hsplit], ?_, fun d hd => ?_⟩
      · have hhead := List.head?_dropWhile_not (fun c => !p c) cs
        rw [hdrop] at hhead
        simpa using hhead
      · simpa using List.mem_takeWhile_imp hd
  · rintro ⟨c, rfl, hc, hfront⟩
    have hkeep : ∀ d ∈ front, (!p d) = true := fun d hd => by simp [hfront d hd]
    rw [List.dropWhile_append_of_pos hkeep, List.takeWhile_append_of_pos hkeep,
      List.dropWhile_cons_of_neg (p := fun d => !p d) (by simp [hc]),
      List.takeWhile_cons_of_neg (p := fun d => !p d) (by simp [hc]), List.append_nil]

theorem cutAt?_eq_none : cutAt? p cs = none ↔ ∀ c ∈ cs, p c = false := by
  unfold cutAt?
  split
  · next hdrop => simpa using List.dropWhile_eq_nil_iff.1 hdrop
  · next c back hdrop =>
    refine iff_of_false nofun fun hnone => ?_
    rw [List.dropWhile_eq_nil_iff.2 fun d hd => by simp [hnone d hd]] at hdrop
    cases hdrop

end Text

end PrefixCache

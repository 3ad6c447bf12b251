import PrefixCache.Proofs.Settings.Typed
import PrefixCache.Settings.CommandLine
/-!
# Layers of settings

The text of a key comes from the last layer that has one for it: the lines
of the file, then the overrides, then the option of its own that some keys
have (`Arguments.Stands`). Within a layer the last text counts. Only the
texts that stand in the end are read, so reading fails just when a line is
broken, or else an override is bad, or else one of the texts that stand
cannot be read (`Arguments.Fails`).
-/

namespace PrefixCache

open Text

/-! ## What lines and overrides say -/

namespace Source

/-- The line is neither blank nor a remark, and no blank parts a key from a
text. -/
def Broken (line : List Char) : Prop :=
  ∃ c rest, Trimmed line (c :: rest) ∧ c ≠ '#' ∧ ∀ d ∈ c :: rest, isBlank d = false

/-- The line has the text after the key: the first blank parts them. -/
def LineSays (line : List Char) (key text : String) : Prop :=
  ∃ gap rest, Trimmed line (key.toList ++ gap :: rest) ∧ key.toList.head? ≠ some '#' ∧
    (∀ c ∈ key.toList, isBlank c = false) ∧ isBlank gap = true ∧ Trimmed rest text.toList

/-- The override has no equals sign, or nothing but blanks before it. -/
def BadPair (pair : String) : Prop :=
  '=' ∉ pair.toList ∨ ∃ front rest, pair.toList = front ++ '=' :: rest ∧ Blank front

/-- The override has the text after the key: the first equals sign parts
them. -/
def PairSays (pair key text : String) : Prop :=
  ∃ front rest, pair.toList = front ++ '=' :: rest ∧ '=' ∉ front ∧
    Trimmed front key.toList ∧ key ≠ "" ∧ Trimmed rest text.toList

variable {s s' : Source} {number : Nat} {line : List Char} {key text pair : String}
variable {e : SettingsError}

/-- What fails for a reason fails with the error for it. -/
theorem error_eq_iff {ε β : Type} {reason : Prop} {e e' : ε} (h : reason) :
    (Except.error e' : Except ε β) = .error e ↔ reason ∧ e = e' := by
  rw [and_iff_right h, Except.error.injEq, eq_comm]

theorem ofLine?_eq_error : ofLine? number line = .error e ↔ Broken line ∧ e = .badLine number := by
  simp only [ofLine?, Broken, trimmed_iff]
  split
  · next htrim => simp [htrim]
  · next htrim => simp [htrim]
  · next cs hfull hremark =>
    generalize trim line = t at *
    cases t with
    | nil => exact absurd rfl hfull
    | cons c rest =>
      have hc : c ≠ '#' := fun h => hremark rest (h ▸ rfl)
      split
      · next hcut => exact error_eq_iff ⟨c, rest, rfl, hc, cutAt?_eq_none.1 hcut⟩
      · next front back hcut =>
        obtain ⟨gap, hsplit, hgap, -⟩ := cutAt?_eq_some.1 hcut
        refine iff_of_false nofun ?_
        rintro ⟨⟨_, _, htrim, -, hnone⟩, -⟩
        obtain ⟨rfl, rfl⟩ := List.cons.inj htrim
        have hmem : gap ∈ c :: rest := hsplit ▸ List.mem_append_right _ List.mem_cons_self
        rw [hnone gap hmem] at hgap
        cases hgap

theorem ofLine?_eq_some :
    ofLine? number line = .ok (some (key, text)) ↔ LineSays line key text := by
  simp only [ofLine?, LineSays, trimmed_iff]
  split
  · next htrim => simp [htrim]
  · next rest htrim =>
    refine iff_of_false nofun ?_
    rintro ⟨gap, back, hsplit, hremark, -, hgap, -⟩
    rw [htrim] at hsplit
    cases hkey : key.toList with
    | nil =>
      rw [hkey] at hsplit
      obtain ⟨rfl, -⟩ := List.cons.inj hsplit
      cases hgap
    | cons c front =>
      rw [hkey] at hsplit hremark
      exact hremark (congrArg some (List.cons.inj hsplit).1.symm)
  · next cs hfull hremark =>
    split
    · next hcut =>
      refine iff_of_false nofun ?_
      rintro ⟨gap, back, hsplit, -, -, hgap, -⟩
      have hnone := cutAt?_eq_none.1 hcut gap (hsplit ▸ List.mem_append_right _ List.mem_cons_self)
      rw [hnone] at hgap
      cases hgap
    · next front back hcut =>
      obtain ⟨gap, hsplit, hgap, hfront⟩ := cutAt?_eq_some.1 hcut
      constructor
      · rintro ⟨⟩
        rw [String.toList_ofList, String.toList_ofList]
        refine ⟨gap, back, hsplit, fun hhead => ?_, hfront, hgap, rfl⟩
        obtain ⟨front, rfl⟩ := List.head?_eq_some_iff.1 hhead
        exact hremark _ hsplit
      · rintro ⟨gap', back', hsplit', -, hfront', hgap', htext⟩
        have hcut' := cutAt?_eq_some.2 ⟨gap', hsplit', hgap', hfront'⟩
        obtain ⟨rfl, rfl⟩ := Prod.mk.inj (Option.some.inj (hcut.symm.trans hcut'))
        rw [htext, String.ofList_toList, String.ofList_toList]

/-- An override is cut at its first equals sign. -/
theorem cutAt?_equals {cs front rest : List Char} :
    cutAt? (· == '=') cs = some (front, rest) ↔ cs = front ++ '=' :: rest ∧ '=' ∉ front := by
  rw [cutAt?_eq_some]
  constructor
  · rintro ⟨c, hsplit, hc, hfront⟩
    obtain rfl := eq_of_beq hc
    exact ⟨hsplit, fun h => by simpa using hfront _ h⟩
  · rintro ⟨hsplit, hfront⟩
    exact ⟨'=', hsplit, rfl, fun d hd => beq_false_of_ne fun h => hfront (h ▸ hd)⟩

/-- It is cut in one way only. -/
theorem cut_unique {cs front rest front' rest' : List Char}
    (hcut : cutAt? (· == '=') cs = some (front, rest)) (hsplit : cs = front' ++ '=' :: rest')
    (hfirst : '=' ∉ front') : front' = front ∧ rest' = rest :=
  Prod.mk.inj (Option.some.inj ((cutAt?_equals.2 ⟨hsplit, hfirst⟩).symm.trans hcut))

theorem badPair_iff : BadPair pair ↔
    ∀ front rest, cutAt? (· == '=') pair.toList = some (front, rest) → trim front = [] := by
  constructor
  · rintro (hnone | ⟨front, rest, hsplit, hblank⟩) front' rest' hcut
    · exact absurd ((cutAt?_equals.1 hcut).1 ▸ List.mem_append_right _ List.mem_cons_self) hnone
    · have hfirst : '=' ∉ front := fun h => absurd (hblank _ h) (by decide)
      obtain ⟨rfl, rfl⟩ := cut_unique hcut hsplit hfirst
      exact trim_eq_nil.2 hblank
  · intro hall
    by_cases hmem : '=' ∈ pair.toList
    · obtain ⟨front, rest, hsplit, hfirst⟩ := List.eq_append_cons_of_mem hmem
      exact .inr ⟨front, rest, hsplit,
        trim_eq_nil.1 (hall front rest (cutAt?_equals.2 ⟨hsplit, hfirst⟩))⟩
    · exact .inl hmem

theorem override_eq_error :
    s.override pair = .error e ↔ BadPair pair ∧ e = .badOverride pair := by
  rw [badPair_iff]
  unfold override
  split
  · next hcut => exact error_eq_iff fun _ _ h => absurd (hcut.symm.trans h) (by rintro ⟨⟩)
  · next front rest hcut =>
    split
    · next hblank =>
      refine error_eq_iff fun front' rest' h => ?_
      rw [hcut] at h
      cases h
      exact hblank
    · next hkey => exact iff_of_false nofun fun h => hkey (h.1 front rest hcut)

theorem override_eq_ok :
    s.override pair = .ok s' ↔ ∃ key text, PairSays pair key text ∧ s' = s.set key text := by
  unfold override PairSays
  simp only [trimmed_iff]
  split
  · next hcut =>
    refine iff_of_false nofun ?_
    rintro ⟨_, _, ⟨front, rest, hsplit, hfirst, -⟩, -⟩
    rw [cutAt?_equals.2 ⟨hsplit, hfirst⟩] at hcut
    cases hcut
  · next front rest hcut =>
    obtain ⟨hsplit, hfirst⟩ := cutAt?_equals.1 hcut
    split
    · next hblank =>
      refine iff_of_false nofun ?_
      rintro ⟨key, _, ⟨front', rest', hsplit', hfirst', hkey, hne, -⟩, -⟩
      obtain ⟨rfl, rfl⟩ := cut_unique hcut hsplit' hfirst'
      exact hne (String.toList_eq_nil_iff.1 (hkey.symm.trans hblank))
    · next hkey =>
      constructor
      · rintro ⟨⟩
        refine ⟨_, _, ⟨front, rest, hsplit, hfirst, ?_, ?_, ?_⟩, rfl⟩
        · exact String.toList_ofList.symm
        · exact fun h => hkey (by simpa using congrArg String.toList h)
        · exact String.toList_ofList.symm
      · rintro ⟨key, text, ⟨front', rest', hsplit', hfirst', hkey', -, htext⟩, rfl⟩
        obtain ⟨rfl, rfl⟩ := cut_unique hcut hsplit' hfirst'
        rw [hkey', htext, String.ofList_toList, String.ofList_toList]

/-! ## Walking lines and overrides -/

/-- The source with an entry set, if there is one. -/
def enter (s : Source) : Option (String × String) → Source
  | none => s
  | some (key, text) => s.set key text

theorem get?_set (key' : String) :
    (s.set key text).get? key' = if key' = key then some text else s.get? key' := by
  simp only [get?, set, List.lookup_cons]
  split <;> simp_all

/-- The source with a key set to a text, if there is one. -/
def setIf (s : Source) (key : String) (text : Option String) : Source :=
  match text with
  | some text => s.set key text
  | none => s

theorem get?_setIf (s : Source) (name : String) (text : Option String) :
    (s.setIf name text).get? key = if key = name then text.or (s.get? key) else s.get? key := by
  cases text with
  | none => simp [setIf]
  | some text =>
    rw [setIf, get?_set]
    rfl

/-- What says what an entry holds is accounted for once that is set. -/
theorem latest_enter {α : Type} {Says : α → String → String → Prop} {x : α} {xs : List α}
    {entry : Option (String × String)} {o : Option String}
    (hx : ∀ key text, Says x key text ↔ entry = some (key, text)) :
    Latest Says (x :: xs) key (s.get? key) o ↔ Latest Says xs key ((s.enter entry).get? key) o := by
  cases entry with
  | none => exact latest_cons_of_silent fun other hsays => nomatch (hx key other).1 hsays
  | some entry =>
    obtain ⟨set, text⟩ := entry
    rw [enter, get?_set]
    split
    · next hkey =>
      refine latest_cons_of_says fun other => ?_
      rw [hx, Option.some.injEq, Prod.mk.injEq, and_iff_right hkey.symm, eq_comm]
    · next hkey =>
      refine latest_cons_of_silent fun other hsays => hkey ?_
      exact (Prod.mk.inj (Option.some.inj ((hx key other).1 hsays))).1.symm

theorem addLines_cons {lines : List (List Char)} {entry : Option (String × String)}
    (h : ofLine? number line = .ok entry) :
    s.addLines number (line :: lines) = (s.enter entry).addLines (number + 1) lines := by
  conv => lhs; unfold addLines
  rw [h]
  cases entry <;> rfl

/-- **Lines are walked up to the first that is broken**, with its number;
without one the source has for each key what the lines leave it at. -/
theorem addLines_cases (s : Source) (number : Nat) (lines : List (List Char)) :
    (∃ s', s.addLines number lines = .ok s' ∧ (∀ line ∈ lines, ¬ Broken line) ∧
      ∀ key o, Latest LineSays lines key (s.get? key) o ↔ o = s'.get? key) ∨
    ∃ before line, s.addLines number lines = .error (.badLine (number + before.length)) ∧
      First Broken lines before line := by
  induction lines generalizing s number with
  | nil => exact .inl ⟨s, rfl, fun _ => nofun, fun key o => latest_nil⟩
  | cons line lines ih =>
    cases hentry : ofLine? number line with
    | error e =>
      obtain ⟨hbroken, rfl⟩ := ofLine?_eq_error.1 hentry
      refine .inr ⟨[], line, ?_, (first_cons_of_bad hbroken).2 ⟨rfl, rfl⟩⟩
      rw [addLines, hentry]
      rfl
    | ok entry =>
      have hfine : ¬ Broken line := fun hbroken => by
        rw [ofLine?_eq_error.2 ⟨hbroken, rfl⟩] at hentry
        cases hentry
      have hsays (key text : String) : LineSays line key text ↔ entry = some (key, text) := by
        rw [← ofLine?_eq_some, hentry, Except.ok.injEq]
      rw [addLines_cons hentry]
      rcases ih (s.enter entry) (number + 1) with
        ⟨s', hok, hall, hlatest⟩ | ⟨before, line', herror, hfirst⟩
      · exact .inl ⟨s', hok, List.forall_mem_cons.2 ⟨hfine, hall⟩,
          fun key o => (latest_enter hsays).trans (hlatest key o)⟩
      · refine .inr ⟨line :: before, line', ?_, (first_cons_of_not_bad hfine).2 ⟨_, rfl, hfirst⟩⟩
        rw [herror, List.length_cons, Nat.add_right_comm, Nat.add_assoc]

/-- **Overrides are walked up to the first that is bad**; without one the
source has for each key what they leave it at. -/
theorem overrideAll_cases (s : Source) (pairs : List String) :
    (∃ s', s.overrideAll pairs = .ok s' ∧ (∀ pair ∈ pairs, ¬ BadPair pair) ∧
      ∀ key o, Latest PairSays pairs key (s.get? key) o ↔ o = s'.get? key) ∨
    ∃ before pair, s.overrideAll pairs = .error (.badOverride pair) ∧
      First BadPair pairs before pair := by
  induction pairs generalizing s with
  | nil => exact .inl ⟨s, rfl, fun _ => nofun, fun key o => latest_nil⟩
  | cons pair pairs ih =>
    cases hset : s.override pair with
    | error e =>
      obtain ⟨hbad, rfl⟩ := override_eq_error.1 hset
      refine .inr ⟨[], pair, ?_, (first_cons_of_bad hbad).2 ⟨rfl, rfl⟩⟩
      rw [overrideAll, hset]
    | ok next =>
      have hfine : ¬ BadPair pair := fun hbad => by
        rw [override_eq_error.2 ⟨hbad, rfl⟩] at hset
        cases hset
      obtain ⟨set, text, hsays, rfl⟩ := override_eq_ok.1 hset
      have honly (key text' : String) :
          PairSays pair key text' ↔ some (set, text) = some (key, text') := by
        constructor
        · intro hsays'
          rw [override_eq_ok.2 ⟨key, text', hsays', rfl⟩] at hset
          exact congrArg List.head? (Source.mk.inj (Except.ok.inj hset.symm))
        · rintro ⟨⟩
          exact hsays
      rw [overrideAll, hset]
      rcases ih (s.set set text) with ⟨s', hok, hall, hlatest⟩ | ⟨before, pair', herror, hfirst⟩
      · exact .inl ⟨s', hok, List.forall_mem_cons.2 ⟨hfine, hall⟩,
          fun key o => (latest_enter honly).trans (hlatest key o)⟩
      · exact .inr ⟨_, pair', herror, (first_cons_of_not_bad hfine).2 ⟨before, rfl, hfirst⟩⟩

end Source

/-! ## The layers of a command line -/

namespace Arguments

variable {a : Arguments} {textOf : String → Option String} {text : String}
variable {key : String} {o : Option String} {e : SettingsError} {c : Settings}

/-- The text of the file that is named is this one; without a file it is
empty. -/
def Opens (a : Arguments) (textOf : String → Option String) (text : String) : Prop :=
  match a.config with
  | none => text = ""
  | some path => textOf path = some text

/-- What the option of its own gives a key. -/
def flag? (a : Arguments) (key : String) : Option String :=
  if key = "address" then a.address
  else if key = "port" then a.port.map toString
  else if key = "unix_socket" then a.unixSocket
  else if key = "log_level" then a.logLevel
  else none

/-- What stands for a key in the end: what its own option gives, or else
what the overrides leave it at when they begin with what the lines of the
file leave it at. -/
def Stands (a : Arguments) (text key : String) (o : Option String) : Prop :=
  ∃ filed given, Latest Source.LineSays (lines text.toList) key none filed ∧
    Latest Source.PairSays a.overrides key filed given ∧ o = (a.flag? key).or given

/-- Why there are no settings: some line is broken, and the number of the
first is told; or else an override is bad, and the first is told; or else
one of the texts that stand cannot be read. -/
inductive Fails (a : Arguments) (text : String) : SettingsError → Prop
  | line {before : List (List Char)} {line : List Char} :
      First Source.Broken (lines text.toList) before line →
      Fails a text (.badLine (before.length + 1))
  | override {before : List String} {pair : String} :
      (∀ line ∈ lines text.toList, ¬ Source.Broken line) →
      First Source.BadPair a.overrides before pair → Fails a text (.badOverride pair)
  | value {text? : String → Option String} {e : SettingsError} :
      (∀ line ∈ lines text.toList, ¬ Source.Broken line) →
      (∀ pair ∈ a.overrides, ¬ Source.BadPair pair) →
      (∀ key o, a.Stands text key o ↔ o = text? key) → Settings.Refused text? e → Fails a text e

/-- Options of their own win over whatever is set before. -/
theorem get?_applyTo (s : Source) : (a.applyTo s).get? key = (a.flag? key).or (s.get? key) := by
  have happly : a.applyTo s =
      (((s.setIf "address" a.address).setIf "port" (a.port.map toString)).setIf
        "unix_socket" a.unixSocket).setIf "log_level" a.logLevel := rfl
  simp only [happly, Source.get?_setIf, flag?]
  split_ifs <;> simp_all

/-- Without a file the source is that of an empty one. -/
theorem source_eq (hopen : a.Opens textOf text) :
    a.source textOf = (Source.addLines {} 1 (lines text.toList)).bind fun base =>
      (base.overrideAll a.overrides).map a.applyTo := by
  unfold Opens at hopen
  unfold source
  cases hconfig : a.config with
  | none =>
    rw [hconfig] at hopen
    subst hopen
    rfl
  | some path =>
    rw [hconfig] at hopen
    simp only at hopen ⊢
    rw [hopen]
    rfl

/-- **Lines and overrides are gone through before anything is read.** -/
theorem source_cases (hopen : a.Opens textOf text) :
    (∃ s, a.source textOf = .ok s ∧ (∀ line ∈ lines text.toList, ¬ Source.Broken line) ∧
      (∀ pair ∈ a.overrides, ¬ Source.BadPair pair) ∧
      ∀ key o, a.Stands text key o ↔ o = s.get? key) ∨
    ∃ e, a.source textOf = .error e ∧ ∀ e', a.Fails text e' ↔ e = e' := by
  rw [source_eq hopen]
  rcases Source.addLines_cases {} 1 (lines text.toList) with
    ⟨base, hbase, hlines, hfiled⟩ | ⟨before, line, hbroken, hfirst⟩
  · rcases Source.overrideAll_cases base a.overrides with
      ⟨s, hs, hpairs, hgiven⟩ | ⟨before, pair, hbad, hfirst⟩
    · refine .inl ⟨a.applyTo s, by rw [hbase]; exact congrArg (Except.map _) hs, hlines, hpairs, ?_⟩
      intro key o
      rw [get?_applyTo]
      constructor
      · rintro ⟨filed, given, hfiled', hgiven', rfl⟩
        obtain rfl := (hfiled key filed).1 hfiled'
        obtain rfl := (hgiven key given).1 hgiven'
        rfl
      · rintro rfl
        exact ⟨_, _, (hfiled key _).2 rfl, (hgiven key _).2 rfl, rfl⟩
    · refine .inr ⟨_, by rw [hbase]; exact congrArg (Except.map _) hbad, fun e' => ⟨?_, ?_⟩⟩
      · rintro (hfirst' | ⟨-, hfirst'⟩ | ⟨-, hpairs, -, -⟩)
        · exact absurd hfirst'.2.1 (hlines _ hfirst'.mem)
        · rw [(hfirst.unique hfirst').2]
        · exact absurd hfirst.2.1 (hpairs _ hfirst.mem)
      · rintro rfl
        exact .override hlines hfirst
  · refine .inr ⟨_, congrArg (Except.bind · _) hbroken, fun e' => ⟨?_, ?_⟩⟩
    · rintro (hfirst' | ⟨hlines, -⟩ | ⟨hlines, -, -, -⟩)
      · rw [(hfirst.unique hfirst').1, Nat.add_comm]
      · exact absurd hfirst.2.1 (hlines _ hfirst.mem)
      · exact absurd hfirst.2.1 (hlines _ hfirst.mem)
    · rintro rfl
      rw [Nat.add_comm]
      exact .line hfirst

/-- A text that stands for a key that holds more than a text can be
read. -/
def Legible (a : Arguments) (text : String) : Prop :=
  ∀ key kind standing, (key, kind) ∈ Settings.typed → a.Stands text key (some standing) →
    ∃ n, kind.Reads standing n

/-- What can be read to the end does not fail. -/
theorem not_fails (hlines : ∀ line ∈ lines text.toList, ¬ Source.Broken line)
    (hpairs : ∀ pair ∈ a.overrides, ¬ Source.BadPair pair) (hread : a.Legible text) :
    ¬ a.Fails text e := by
  rintro (hfirst | ⟨-, hfirst⟩ | ⟨-, -, hstands, before, key, kind, standing, hfirst, hkey, -⟩)
  · exact hlines _ hfirst.mem hfirst.2.1
  · exact hpairs _ hfirst.mem hfirst.2.1
  · obtain ⟨_, hkey', hunread⟩ := hfirst.2.1
    obtain rfl := Option.some.inj (hkey.symm.trans hkey')
    obtain ⟨n, hn⟩ := hread key kind standing hfirst.mem ((hstands key _).2 hkey.symm)
    exact hunread n hn

theorem settings_eq_error (hopen : a.Opens textOf text) :
    a.settings textOf = .error e ↔ a.Fails text e := by
  unfold settings
  rcases source_cases hopen with ⟨s, hs, hlines, hpairs, hstands⟩ | ⟨e', he, hfails⟩
  · rw [hs]
    refine Settings.ofSource_eq_error.trans ⟨.value hlines hpairs hstands, ?_⟩
    rintro (hfirst | ⟨-, hfirst⟩ | ⟨-, -, hstands', hrefused⟩)
    · exact absurd hfirst.2.1 (hlines _ hfirst.mem)
    · exact absurd hfirst.2.1 (hpairs _ hfirst.mem)
    · rename_i text?
      obtain rfl : text? = s.get? := funext fun key =>
        (hstands key _).1 ((hstands' key _).2 rfl)
      exact hrefused
  · rw [he, hfails]
    exact ⟨Except.error.inj, congrArg Except.error⟩

/-- **The last text counts.** When the file, if one is named, can be read as
text: there are settings just when no line is broken, no override is bad,
and each text that stands in the end for a key that holds more than a text
can be read. They follow the texts that stand, and a port on the command
line is the port. Otherwise the first broken line is reported, or else the
first bad override, or else the first text that cannot be read. -/
theorem last_text_counts (hopen : a.Opens textOf text) :
    ((∃ c, a.settings textOf = .ok c) ↔
      (∀ line ∈ lines text.toList, ¬ Source.Broken line) ∧
      (∀ pair ∈ a.overrides, ¬ Source.BadPair pair) ∧ a.Legible text) ∧
    (∀ c, a.settings textOf = .ok c → ∃ text? : String → Option String,
      (∀ key o, a.Stands text key o ↔ o = text? key) ∧ c.Follows text? ∧
        ∀ port, a.port = some port → c.port = port) ∧
    ∀ e, a.settings textOf = .error e ↔ a.Fails text e := by
  have hsource {c : Settings} (hok : a.settings textOf = .ok c) :
      ∃ s, Settings.ofSource s = .ok c ∧ (∀ line ∈ lines text.toList, ¬ Source.Broken line) ∧
        (∀ pair ∈ a.overrides, ¬ Source.BadPair pair) ∧
        ∀ key o, a.Stands text key o ↔ o = s.get? key := by
    unfold settings at hok
    rcases source_cases hopen with ⟨s, hs, hgood⟩ | ⟨e, he, -⟩
    · rw [hs] at hok
      exact ⟨s, hok, hgood⟩
    · rw [he] at hok
      cases hok
  refine ⟨⟨?_, ?_⟩, fun c hok => ?_, fun e => settings_eq_error hopen⟩
  · rintro ⟨c, hok⟩
    obtain ⟨s, hs, hlines, hpairs, hstands⟩ := hsource hok
    refine ⟨hlines, hpairs, fun key kind standing hmem hstanding => ?_⟩
    by_contra hunread
    exact (Settings.ofSource_eq_ok.1 hs).1 (key, kind) hmem
      ⟨standing, ((hstands key _).1 hstanding).symm, not_exists.1 hunread⟩
  · rintro ⟨hlines, hpairs, hread⟩
    cases hresult : a.settings textOf with
    | ok c => exact ⟨c, rfl⟩
    | error e => exact absurd ((settings_eq_error hopen).1 hresult) (not_fails hlines hpairs hread)
  · obtain ⟨s, hs, -, -, hstands⟩ := hsource hok
    have hfollows := Settings.follows_of_ok hs
    refine ⟨s.get?, hstands, hfollows, fun port hport => ?_⟩
    -- the option of the port stands for its key, and is read as it was
    obtain ⟨filed, given, -, -, hstanding⟩ := (hstands "port" _).2 rfl
    have htext : s.get? "port" = some (toString port) := by
      rw [hstanding, flag?, hport]
      rfl
    have hread := hfollows.port
    rw [htext] at hread
    exact Int.natCast_inj.1 (hread.1.unique (Decimal.signed_toString port))

/-- In this file a text is replaced, a text is no size, and a key is
unknown. The overrides replace the bad text, and the second of them is no
size either before the third comes. -/
theorem replaced_texts_are_not_read :
    let text := "port 9000\n# remark\nmax_memory lots\ncolour red\nport 9001\nmax_idletime 5m"
    let a : Arguments :=
      { config := some "cache", logLevel := some "warn"
        overrides := [" max_memory = 4MB ", "compression=none", "compression=1k"] }
    let c : Settings :=
      { port := 9001, maxMemory := 4194304, maxIdle := 300000, compressAbove := 1024,
        logLevel := "warn" }
    a.Opens (fun _ => some text) text ∧ a.settings (fun _ => some text) = .ok c ∧
      a.Legible text ∧ ∃ text? : String → Option String,
        (∀ key o, a.Stands text key o ↔ o = text? key) ∧ c.Follows text? := by
  intro text a c
  have hopen : a.Opens (fun _ => some text) text := rfl
  have hok : a.settings (fun _ => some text) = .ok c := by
    have heval : (a.settings fun _ => some text).toOption = some c := by decide +kernel
    generalize a.settings (fun _ => some text) = result at heval
    cases result with
    | error e => cases heval
    | ok c' => exact congrArg Except.ok (Option.some.inj heval)
  obtain ⟨hread, hstands, -⟩ := last_text_counts hopen
  obtain ⟨text?, hwhole, hfollows, -⟩ := hstands c hok
  exact ⟨hopen, hok, (hread.1 ⟨c, hok⟩).2.2, text?, hwhole, hfollows⟩

end Arguments

end PrefixCache

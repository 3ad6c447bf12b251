import PrefixCache.Settings.Units
/-!
# Sources of settings

A source is a list of keys with their texts. It is filled from the lines
of a file, from overrides, and key by key; what is set later wins. Only
then are the texts read as numbers, sizes or durations, so a bad text that
is replaced does no harm.
-/

namespace PrefixCache

/-- Why settings cannot be used. -/
inductive SettingsError where
  /-- The file cannot be read as text. -/
  | unreadable (path : String)
  /-- A line without a value. -/
  | badLine (line : Nat)
  /-- An override without a key or an equals sign. -/
  | badOverride (pair : String)
  /-- A text that is not what its key needs. -/
  | badValue (key value expected : String)
  deriving Repr, DecidableEq

/-- The wording of a settings error. -/
def SettingsError.message : SettingsError → String
  | unreadable path => s!"failed to read config file {path}"
  | badLine line => s!"line {line}: expected `key value`"
  | badOverride pair => s!"invalid override `{pair}`, expected key=value"
  | badValue key value expected => s!"invalid value `{value}` for `{key}`: expected {expected}"

/-- Keys and their texts, the latest first. -/
structure Source where
  entries : List (String × String) := []
  deriving Repr, DecidableEq

namespace Source

/-- Sets a key. -/
def set (s : Source) (key text : String) : Source := { entries := (key, text) :: s.entries }

/-- The text of a key: the one set last. -/
def get? (s : Source) (key : String) : Option String := s.entries.lookup key

/-! ## Files and overrides -/

/-- The entry of a line: a key and a text with blanks between them, or
none for a line that is blank or begins with `#`. -/
def ofLine? (number : Nat) (line : List Char) : Except SettingsError (Option (String × String)) :=
  match Text.trim line with
  | [] => .ok none
  | '#' :: _ => .ok none
  | cs =>
    match Text.cutAt? Text.isBlank cs with
    | none => .error (.badLine number)
    | some (key, text) => .ok (some (String.ofList key, String.ofList (Text.trim text)))

/-- Adds the entries of lines, the first of which has the given number. -/
def addLines (s : Source) (number : Nat) : List (List Char) → Except SettingsError Source
  | [] => .ok s
  | line :: rest =>
    match ofLine? number line with
    | .error e => .error e
    | .ok none => s.addLines (number + 1) rest
    | .ok (some (key, text)) => (s.set key text).addLines (number + 1) rest

/-- The source a file holds. -/
def ofText (text : String) : Except SettingsError Source :=
  addLines {} 1 (Text.lines text.toList)

/-- Applies an override: a key, an equals sign, and a text. -/
def override (s : Source) (pair : String) : Except SettingsError Source :=
  match Text.cutAt? (· == '=') pair.toList with
  | none => .error (.badOverride pair)
  | some (key, text) =>
    if Text.trim key = [] then .error (.badOverride pair)
    else .ok (s.set (String.ofList (Text.trim key)) (String.ofList (Text.trim text)))

/-- Applies overrides in order, up to the first bad one. -/
def overrideAll (s : Source) : List String → Except SettingsError Source
  | [] => .ok s
  | pair :: rest =>
    match s.override pair with
    | .error e => .error e
    | .ok s => s.overrideAll rest

/-! ## Reading a key -/

/-- Reads the text of a key, if it is set. -/
def read {β : Type} (s : Source) (key expected : String) (reader : List Char → Option β) :
    Except SettingsError (Option β) :=
  match s.get? key with
  | none => .ok none
  | some text =>
    match reader text.toList with
    | none => .error (.badValue key text expected)
    | some b => .ok (some b)

/-- Reads an integer. -/
def readInt (s : Source) (key : String) : Except SettingsError (Option Int) :=
  s.read key "an integer" fun cs => (Decimal.int64? cs).map Int64.toInt

/-- Reads a size in bytes. -/
def readSize (s : Source) (key : String) : Except SettingsError (Option Nat) :=
  s.read key "a size like 512, 64K, 4MB or 2G" Units.size?

/-- Reads a duration in milliseconds. -/
def readDuration (s : Source) (key : String) : Except SettingsError (Option Nat) :=
  s.read key "a duration like 100ms, 15s, 5m, 1h or 30d" Units.duration?

/-- Reads an integer that has to satisfy `fits`, and is `default` when the
key is not set. -/
def readFitting (s : Source) (key expected : String) (fits : Int → Bool) (default : Nat) :
    Except SettingsError Nat :=
  match s.readInt key with
  | .error e => .error e
  | .ok none => .ok default
  | .ok (some n) =>
    if fits n then .ok n.toNat else .error (.badValue key (toString n) expected)

end Source

end PrefixCache

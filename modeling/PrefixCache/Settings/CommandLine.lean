import PrefixCache.Settings.Basic
/-!
# The command line

Options are read from left to right. An option that takes a value is
judged when the next option begins, or at the end: first whether it has a
value, then whether it was given before, then the value itself. A word
that is no option and no value is refused at once, whatever is still to
be judged.
-/

namespace PrefixCache

/-- The options that take a value. -/
inductive Flag where
  | config
  | address
  | port
  | unixSocket
  | logLevel
  | override
  deriving Repr, DecidableEq

namespace Flag

/-- All options that take a value. -/
def all : List Flag := [config, address, port, unixSocket, logLevel, override]

/-- The long name of an option. -/
def name : Flag → String
  | config => "config"
  | address => "address"
  | port => "port"
  | unixSocket => "unix-socket"
  | logLevel => "log-level"
  | override => "option"

/-- The short name of an option. -/
def letter : Flag → Char
  | config => 'c'
  | address => 'a'
  | port => 'p'
  | unixSocket => 'u'
  | logLevel => 'l'
  | override => 'o'

/-- What an option is for. -/
def about : Flag → String
  | config => "read settings from a file of lines `key value`"
  | address => "listen at this address"
  | port => "listen at this port"
  | unixSocket => "listen at this unix socket, too"
  | logLevel => "one of error, warn, info, debug, trace"
  | override => "set a key, as in `-o max_memory=512M`; may be given again"

end Flag

/-- What an option is about. -/
inductive Switch where
  | takes (flag : Flag)
  | help
  | version
  deriving Repr, DecidableEq

/-- The option with a long name. -/
def Switch.ofName? (name : List Char) : Option Switch :=
  if name = "help".toList then some .help
  else if name = "version".toList then some .version
  else (Flag.all.find? fun f => f.name.toList == name).map .takes

/-- The option with a short name. -/
def Switch.ofLetter? (c : Char) : Option Switch :=
  if c = 'h' then some .help
  else if c = 'V' then some .version
  else (Flag.all.find? fun f => f.letter == c).map .takes

/-- Why a command line gives no arguments. -/
inductive UsageError where
  | unknown (word : String)
  | missingValue (flag : Flag)
  | emptyPath (flag : Flag)
  | badValue (flag : Flag) (value : String)
  | givenTwice (flag : Flag)
  | unneededValue (name : String)
  /-- Help was asked for. -/
  | help
  /-- The version was asked for. -/
  | version
  deriving Repr, DecidableEq

/-- The wording of a usage error. -/
def UsageError.message : UsageError → String
  | unknown word => s!"unexpected argument '{word}' found"
  | missingValue flag => s!"a value is required for '--{flag.name}' but none was supplied"
  | emptyPath flag => s!"a value is required for '--{flag.name}' but none was supplied"
  | badValue flag value => s!"invalid value '{value}' for '--{flag.name}'"
  | givenTwice flag => s!"the argument '--{flag.name}' cannot be used multiple times"
  | unneededValue name => s!"unexpected value for '--{name}' found; no more were expected"
  | help => "help"
  | version => "version"

/-- What a command line says. -/
structure Arguments where
  config : Option String := none
  address : Option String := none
  port : Option Nat := none
  /-- The path of the socket as it is displayed, which is all that enters the
  settings: in a path that is no text, what cannot be read is replaced. -/
  unixSocket : Option String := none
  logLevel : Option String := none
  overrides : List String := []
  deriving Repr, DecidableEq

namespace Arguments

/-- Reads a port. -/
def port? (value : String) : Option Nat :=
  match Decimal.int64? value.toList with
  | some n => if 0 ≤ n.toInt ∧ n.toInt < 65536 then some n.toInt.toNat else none
  | none => none

/-- Whether an option has been given. Overrides may be given any number
of times. -/
def given (a : Arguments) : Flag → Bool
  | .config => a.config.isSome
  | .address => a.address.isSome
  | .port => a.port.isSome
  | .unixSocket => a.unixSocket.isSome
  | .logLevel => a.logLevel.isSome
  | .override => false

/-- Takes a value for an option. -/
def take (a : Arguments) (flag : Flag) (value : String) : Except UsageError Arguments :=
  match flag with
  | .config => if value = "" then .error (.emptyPath flag) else .ok { a with config := some value }
  | .unixSocket =>
    if value = "" then .error (.emptyPath flag) else .ok { a with unixSocket := some value }
  | .address => .ok { a with address := some value }
  | .logLevel => .ok { a with logLevel := some value }
  | .override => .ok { a with overrides := a.overrides ++ [value] }
  | .port =>
    match port? value with
    | some n => .ok { a with port := some n }
    | none => .error (.badValue flag value)

/-- Judges an option and its value. -/
def settle (a : Arguments) (flag : Flag) (value : Option String) : Except UsageError Arguments :=
  match value with
  | none => .error (.missingValue flag)
  | some value => if a.given flag then .error (.givenTwice flag) else a.take flag value

end Arguments

/-- A command line that has been read up to some word: what is settled,
the option that is not judged yet with its value if it has one, and
whether options have ended. -/
structure Reading where
  settled : Arguments := {}
  pending : Option (Flag × Option String) := none
  wordsOnly : Bool := false

namespace Reading

/-- Judges the option that is not judged yet. -/
def close (r : Reading) : Except UsageError Arguments :=
  match r.pending with
  | none => .ok r.settled
  | some (flag, value) => r.settled.settle flag value

/-- Reads an option, with its value when that is attached. -/
def option (r : Reading) (switch : Switch) (name : String) (attached : Option String) :
    Except UsageError Reading :=
  match switch, attached with
  -- The option before this one is judged first, and its fault wins.
  | .takes flag, none => r.close.map fun settled => { settled, pending := some (flag, none) }
  | .takes flag, some value =>
    r.close.bind fun settled => (settled.settle flag (some value)).map fun settled => { settled }
  | _, some _ => .error (.unneededValue name)
  | .help, none => r.close.bind fun _ => .error .help
  | .version, none => r.close.bind fun _ => .error .version

/-- Reads a long option. -/
def long (r : Reading) (text : List Char) : Except UsageError Reading :=
  let (name, attached) := match Text.cutAt? (· == '=') text with
    | some (name, value) => (name, some (String.ofList value))
    | none => (text, none)
  match Switch.ofName? name with
  | none => .error (.unknown (String.ofList ('-' :: '-' :: text)))
  | some switch => r.option switch (String.ofList name) attached

/-- The value attached to a short option; an equals sign before it is not
part of it. -/
def attachedTo : List Char → Option String
  | [] => none
  | '=' :: rest => some (String.ofList rest)
  | rest => some (String.ofList rest)

/-- Reads a short option. Those without a value end the reading, so no
other can follow in the same word. -/
def short (r : Reading) (c : Char) (rest : List Char) : Except UsageError Reading :=
  match Switch.ofLetter? c with
  | none => .error (.unknown (String.ofList ['-', c]))
  | some (.takes flag) => r.option (.takes flag) flag.name (attachedTo rest)
  | some switch => r.option switch (String.ofList [c]) none

/-- Reads a word that is no option: the value an option waits for. -/
def plain (r : Reading) (text : String) : Except UsageError Reading :=
  match r.wordsOnly, r.pending with
  | false, some (flag, none) => .ok { r with pending := some (flag, some text) }
  | _, _ => .error (.unknown text)

/-- Reads one word. -/
def next (r : Reading) (text : String) : Except UsageError Reading :=
  if r.wordsOnly then r.plain text
  else
    match text.toList with
    | ['-', '-'] => .ok { r with wordsOnly := true }
    | '-' :: '-' :: rest => r.long rest
    | '-' :: c :: rest => r.short c rest
    | _ => r.plain text

/-- Reads words up to the end. -/
def finish (r : Reading) : List String → Except UsageError Arguments
  | [] => r.close
  | text :: rest =>
    match r.next text with
    | .error e => .error e
    | .ok r => r.finish rest

end Reading

namespace Arguments

/-- Reads a command line. -/
def ofWords (words : List String) : Except UsageError Arguments := Reading.finish {} words

/-- The options and what they are for, one a line. -/
def usage : String :=
  let line := fun (letter : Char) (name about : String) => s!"  -{letter}, --{name}: {about}\n"
  String.join (Flag.all.map fun f => line f.letter s!"{f.name} <value>" f.about)
    ++ line 'h' "help" "show this text" ++ line 'V' "version" "show the version"

/-- Sets the keys that have an option of their own. -/
def applyTo (a : Arguments) (s : Source) : Source :=
  let setIf := fun (s : Source) (key : String) (text : Option String) =>
    match text with
    | some text => s.set key text
    | none => s
  let s := setIf s "address" a.address
  let s := setIf s "port" (a.port.map toString)
  let s := setIf s "unix_socket" a.unixSocket
  setIf s "log_level" a.logLevel

/-- The source a command line stands for: the file, then the overrides,
then the options. `textOf` gives the text of a file. -/
def source (a : Arguments) (textOf : String → Option String) : Except SettingsError Source := do
  let base ← match a.config with
    | none => .ok {}
    | some path =>
      match textOf path with
      | none => .error (.unreadable path)
      | some text => Source.ofText text
  let s ← base.overrideAll a.overrides
  return a.applyTo s

/-- The settings a command line stands for. -/
def settings (a : Arguments) (textOf : String → Option String) : Except SettingsError Settings :=
  (a.source textOf).bind Settings.ofSource

end Arguments

end PrefixCache

import PrefixCache.Proofs.Settings.Precedence
import PrefixCache.Proofs.Settings.Units
import PrefixCache.Settings.Basic
/-!
# Keys that are read

Fifteen keys hold more than a text: a port, a count, a size or a duration
(`Settings.typed`). What a text is read as for such a key is a relation
that does not say how to read it (`Kind.Reads`), and so is what is said
about a text that cannot be read (`Kind.Refuses`). A source gives settings
just when every text that stands for such a key can be read, and these
settings follow the source key by key (`Settings.follows_of_ok`); otherwise
the first of the keys whose text cannot be read is reported
(`Settings.ofSource_eq_error`).
-/

namespace PrefixCache

/-- What the text of a key is read as. -/
inductive Kind where
  | port
  | count
  | size
  | duration
  deriving DecidableEq

namespace Kind

/-- The text of a key of this kind is read as the number: sizes are in
bytes, durations in milliseconds. -/
def Reads (kind : Kind) (text : String) (n : Nat) : Prop :=
  match kind with
  | port => Decimal.Signed text.toList n ∧ n < 65536
  | count => Decimal.Signed text.toList n ∧ 0 < n ∧ n < 2 ^ 63
  | size => ∃ count per, Units.Amount Units.sizes text.toList count per ∧
      n = count * per ∧ n < 2 ^ 64
  | duration => Units.Amount Units.instants text.toList n 1 ∨
      ∃ count per, Units.Amount Units.times text.toList count per ∧
        n = 1000 * (count * per) ∧ count * per < 2 ^ 64

/-- What is said of a text that should be an integer with some property:
it is none that fits in 64 bits, or it is one without the property. -/
inductive RefusesInteger (fits : Int → Prop) (expected key text : String) : SettingsError → Prop
  | unread : (∀ z : Int, Decimal.Signed text.toList z → ¬ (-2 ^ 63 ≤ z ∧ z < 2 ^ 63)) →
      RefusesInteger fits expected key text (.badValue key text "an integer")
  | unfit {z : Int} : Decimal.Signed text.toList z → -2 ^ 63 ≤ z → z < 2 ^ 63 → ¬ fits z →
      RefusesInteger fits expected key text (.badValue key (toString z) expected)

/-- What is said of a text of this kind that cannot be read. -/
def Refuses (kind : Kind) (key text : String) (e : SettingsError) : Prop :=
  match kind with
  | port => RefusesInteger (fun z => 0 ≤ z ∧ z < 65536) "a port number" key text e
  | count => RefusesInteger (fun z => 0 < z) "a positive integer" key text e
  | size => (∀ n, ¬ Reads size text n) ∧
      e = .badValue key text "a size like 512, 64K, 4MB or 2G"
  | duration => (∀ n, ¬ Reads duration text n) ∧
      e = .badValue key text "a duration like 100ms, 15s, 5m, 1h or 30d"

/-- What a key comes to: what its text is read as, or the default when no
text stands for it. -/
def Gives (kind : Kind) (text : Option String) (default n : Nat) : Prop :=
  match text with
  | none => n = default
  | some text => kind.Reads text n

end Kind

namespace Settings

/-- The keys that hold more than a text, in the order in which they are
read. -/
def typed : List (String × Kind) :=
  [("port", .port), ("max_clients", .count), ("max_idletime", .duration),
    ("max_request_size", .size), ("max_response_size", .size), ("max_item_ttl", .duration),
    ("max_memory", .size), ("max_key_size", .size), ("max_value_size", .size),
    ("compression", .size), ("cron_period", .duration), ("expiry_period", .duration),
    ("memory_sweep_period", .duration), ("gc_ratio", .duration), ("stats_period", .duration)]

/-- A text stands for the key, and it cannot be read. -/
def Unreadable (text? : String → Option String) (typed : String × Kind) : Prop :=
  ∃ text, text? typed.1 = some text ∧ ∀ n, ¬ typed.2.Reads text n

/-- What is said when the texts of some keys cannot be read: it is said of
the first of them. -/
def Refused (text? : String → Option String) (e : SettingsError) : Prop :=
  ∃ before key kind text, First (Unreadable text?) typed before (key, kind) ∧
    text? key = some text ∧ kind.Refuses key text e

/-- The settings when nothing is set. -/
def builtIn : Settings := {}

/-- The settings are what the texts of the keys are read as, and the
defaults where no text stands. -/
structure Follows (c : Settings) (text? : String → Option String) : Prop where
  address : c.address = (text? "address").getD builtIn.address
  port : Kind.port.Gives (text? "port") builtIn.port c.port
  unixSocket : c.unixSocket = text? "unix_socket"
  maxClients : Kind.count.Gives (text? "max_clients") builtIn.maxClients c.maxClients
  maxIdle : Kind.duration.Gives (text? "max_idletime") builtIn.maxIdle c.maxIdle
  maxRequest : Kind.size.Gives (text? "max_request_size") builtIn.maxRequest c.maxRequest
  maxResponse : Kind.size.Gives (text? "max_response_size") builtIn.maxResponse c.maxResponse
  /-- The longest time to live is kept in whole seconds. -/
  maxItemTtl : ∃ millis,
    Kind.duration.Gives (text? "max_item_ttl") 2592000000 millis ∧
      c.maxItemTtl = signedSeconds millis
  maxMemory : Kind.size.Gives (text? "max_memory") builtIn.maxMemory c.maxMemory
  maxKey : Kind.size.Gives (text? "max_key_size") builtIn.maxKey c.maxKey
  maxValue : Kind.size.Gives (text? "max_value_size") builtIn.maxValue c.maxValue
  compressAbove : Kind.size.Gives (text? "compression") builtIn.compressAbove c.compressAbove
  cronPeriod : Kind.duration.Gives (text? "cron_period") builtIn.cronPeriod c.cronPeriod
  expiryPeriod : Kind.duration.Gives (text? "expiry_period") builtIn.expiryPeriod c.expiryPeriod
  memoryPeriod :
    Kind.duration.Gives (text? "memory_sweep_period") builtIn.memoryPeriod c.memoryPeriod
  staleAfter : Kind.duration.Gives (text? "gc_ratio") builtIn.staleAfter c.staleAfter
  statsPeriod : Kind.duration.Gives (text? "stats_period") builtIn.statsPeriod c.statsPeriod
  logLevel : c.logLevel = (text? "log_level").getD builtIn.logLevel
  logFile : c.logFile = text? "log_file"
  pidFile : c.pidFile = text? "pid_file"

end Settings

/-! ## Reading a text -/

namespace Kind

/-- An integer with some property, where only numbers that are not negative
have it. -/
def integer? (fits : Int → Bool) (cs : List Char) : Option Nat :=
  ((Decimal.int64? cs).filter fun z => fits z.toInt).map fun z => z.toInt.toNat

/-- The reader for a kind. -/
def read? (kind : Kind) (cs : List Char) : Option Nat :=
  match kind with
  | port => integer? (fun z => 0 ≤ z && z < 65536) cs
  | count => integer? (fun z => 0 < z) cs
  | size => Units.size? cs
  | duration => Units.duration? cs

/-- The complaint about a text that should be an integer with some
property. -/
def integerComplaint (expected key text : String) : SettingsError :=
  match Decimal.int64? text.toList with
  | none => .badValue key text "an integer"
  | some z => .badValue key (toString z.toInt) expected

/-- The complaint about a text that cannot be read. -/
def complaint (kind : Kind) (key text : String) : SettingsError :=
  match kind with
  | port => integerComplaint "a port number" key text
  | count => integerComplaint "a positive integer" key text
  | size => .badValue key text "a size like 512, 64K, 4MB or 2G"
  | duration => .badValue key text "a duration like 100ms, 15s, 5m, 1h or 30d"

variable {kind : Kind} {key text expected : String} {n : Nat} {e : SettingsError}
variable {fits : Int → Bool} {Fits : Int → Prop}

theorem integer?_eq_some {cs : List Char} (hpos : ∀ z, fits z = true → 0 ≤ z) :
    integer? fits cs = some n ↔
      Decimal.Signed cs n ∧ fits n = true ∧ (n : Int) < 2 ^ 63 := by
  simp only [integer?, Option.map_eq_some_iff, Option.filter_eq_some_iff, Decimal.int64?_eq_some]
  constructor
  · rintro ⟨z, ⟨hz, hfits⟩, rfl⟩
    rw [Int.toNat_of_nonneg (hpos _ hfits)]
    exact ⟨hz, hfits, Int64.toInt_lt z⟩
  · rintro ⟨hn, hfits, hmost⟩
    have hback : (Int64.ofInt n).toInt = n := Int64.toInt_ofInt_of_le (by omega) hmost
    exact ⟨Int64.ofInt n, by rw [hback]; exact ⟨hn, hfits⟩, by rw [hback, Int.toNat_natCast]⟩

/-- **The readers read what the kinds say.** -/
theorem read?_eq_some : kind.read? text.toList = some n ↔ kind.Reads text n := by
  cases kind with
  | port =>
    rw [read?, Reads, integer?_eq_some fun z h => by simp at h; omega]
    simp only [Bool.and_eq_true, decide_eq_true_eq]
    exact and_congr_right fun _ => by omega
  | count =>
    rw [read?, Reads, integer?_eq_some fun z h => by simp at h; omega]
    simp only [decide_eq_true_eq]
    exact and_congr_right fun _ => by omega
  | size => exact Units.size?_eq_some
  | duration => exact Units.duration?_eq_some

theorem read?_eq_none : kind.read? text.toList = none ↔ ∀ n, ¬ kind.Reads text n := by
  simp only [Option.eq_none_iff_forall_ne_some, ne_eq, read?_eq_some]

theorem refusesInteger_iff (hfits : ∀ z, fits z = true ↔ Fits z) :
    RefusesInteger Fits expected key text e ↔
      integer? fits text.toList = none ∧ e = integerComplaint expected key text := by
  have hread (z : Int64) : Decimal.int64? text.toList = some z ↔ Decimal.Signed text.toList z.toInt :=
    Decimal.int64?_eq_some
  have hback {z : Int} (hlow : -2 ^ 63 ≤ z) (hhigh : z < 2 ^ 63) : (Int64.ofInt z).toInt = z :=
    Int64.toInt_ofInt_of_le hlow hhigh
  unfold integer? integerComplaint
  constructor
  · rintro (hnone | ⟨hz, hlow, hhigh, hunfit⟩)
    · have hunread : Decimal.int64? text.toList = none :=
        Option.eq_none_iff_forall_ne_some.2 fun z hz =>
          hnone z.toInt ((hread z).1 hz) ⟨Int64.le_toInt z, Int64.toInt_lt z⟩
      rw [hunread]
      exact ⟨rfl, rfl⟩
    · have hz' := (hread _).2 ((hback hlow hhigh).symm ▸ hz)
      rw [hz', Option.filter_some, hback hlow hhigh, if_neg (mt (hfits _).1 hunfit)]
      exact ⟨rfl, by simp only [hback hlow hhigh]⟩
  · rintro ⟨hnone, rfl⟩
    cases hint : Decimal.int64? text.toList with
    | none =>
      refine .unread fun z hz hrange => ?_
      rw [(hread (Int64.ofInt z)).2 ((hback hrange.1 hrange.2).symm ▸ hz)] at hint
      cases hint
    | some z =>
      refine .unfit ((hread z).1 hint) (Int64.le_toInt z) (Int64.toInt_lt z) fun hz => ?_
      rw [hint, Option.filter_some, if_pos ((hfits _).2 hz)] at hnone
      cases hnone

/-- **A text that cannot be read is complained about.** -/
theorem refuses_iff :
    kind.Refuses key text e ↔ kind.read? text.toList = none ∧ e = kind.complaint key text := by
  cases kind with
  | port =>
    rw [Refuses, read?, complaint]
    exact refusesInteger_iff fun z => by simp
  | count =>
    rw [Refuses, read?, complaint]
    exact refusesInteger_iff fun z => by simp
  | size => rw [read?_eq_none, Refuses, complaint]
  | duration => rw [read?_eq_none, Refuses, complaint]

end Kind

/-! ## Reading a source -/

namespace Source

variable {s : Source} {key : String} {e : SettingsError}

/-- Whether the text of a key can be read. -/
def check (s : Source) (key : String) (kind : Kind) : Except SettingsError Unit :=
  match s.get? key with
  | none => .ok ()
  | some text =>
    match kind.read? text.toList with
    | none => .error (kind.complaint key text)
    | some _ => .ok ()

/-- Whether the texts of all of some keys can be read. -/
def checkAll (s : Source) : List (String × Kind) → Except SettingsError Unit
  | [] => .ok ()
  | (key, kind) :: rest => do
    s.check key kind
    s.checkAll rest

/-- What the text of a key is read as, if it can be. -/
def given? (s : Source) (key : String) (kind : Kind) : Option Nat :=
  (s.get? key).bind fun text => kind.read? text.toList

theorem readSize_eq (s : Source) (key : String) :
    s.readSize key = (fun _ => s.given? key .size) <$> s.check key .size := by
  unfold readSize read check given?
  cases s.get? key with
  | none => rfl
  | some text =>
    simp only [Kind.read?, Option.bind_some]
    cases Units.size? text.toList <;> rfl

theorem readDuration_eq (s : Source) (key : String) :
    s.readDuration key = (fun _ => s.given? key .duration) <$> s.check key .duration := by
  unfold readDuration read check given?
  cases s.get? key with
  | none => rfl
  | some text =>
    simp only [Kind.read?, Option.bind_some]
    cases Units.duration? text.toList <;> rfl

/-- A kind that reads integers with some property. -/
theorem readFitting_eq {kind : Kind} {fits : Int → Bool} {expected : String}
    (hread : ∀ cs, kind.read? cs = Kind.integer? fits cs)
    (hcomplaint : ∀ key text, kind.complaint key text = Kind.integerComplaint expected key text)
    (s : Source) (key : String) (default : Nat) :
    s.readFitting key expected fits default =
      (fun _ => (s.given? key kind).getD default) <$> s.check key kind := by
  unfold readFitting readInt read check given?
  cases s.get? key with
  | none => rfl
  | some text =>
    simp only [hread, hcomplaint, Kind.integer?, Kind.integerComplaint, Option.bind_some]
    cases Decimal.int64? text.toList with
    | none => rfl
    | some z =>
      simp only [Option.map_some, Option.filter_some]
      cases fits z.toInt <;> rfl

theorem readPort_eq (s : Source) (key : String) (default : Nat) :
    s.readFitting key "a port number" (fun n => 0 ≤ n && n < 65536) default =
      (fun _ => (s.given? key .port).getD default) <$> s.check key .port :=
  readFitting_eq (fun _ => rfl) (fun _ _ => rfl) s key default

theorem readCount_eq (s : Source) (key : String) (default : Nat) :
    s.readFitting key "a positive integer" (fun n => 0 < n) default =
      (fun _ => (s.given? key .count).getD default) <$> s.check key .count :=
  readFitting_eq (fun _ => rfl) (fun _ _ => rfl) s key default

/-- The settings that a source gives, where a text that cannot be read counts
as none. -/
def given (s : Source) : Settings where
  address := (s.get? "address").getD Settings.builtIn.address
  port := (s.given? "port" .port).getD Settings.builtIn.port
  unixSocket := s.get? "unix_socket"
  maxClients := (s.given? "max_clients" .count).getD Settings.builtIn.maxClients
  maxIdle := (s.given? "max_idletime" .duration).getD Settings.builtIn.maxIdle
  maxRequest := (s.given? "max_request_size" .size).getD Settings.builtIn.maxRequest
  maxResponse := (s.given? "max_response_size" .size).getD Settings.builtIn.maxResponse
  maxItemTtl := ((s.given? "max_item_ttl" .duration).map Settings.signedSeconds).getD
    Settings.builtIn.maxItemTtl
  maxMemory := (s.given? "max_memory" .size).getD Settings.builtIn.maxMemory
  maxKey := (s.given? "max_key_size" .size).getD Settings.builtIn.maxKey
  maxValue := (s.given? "max_value_size" .size).getD Settings.builtIn.maxValue
  compressAbove := (s.given? "compression" .size).getD Settings.builtIn.compressAbove
  cronPeriod := (s.given? "cron_period" .duration).getD Settings.builtIn.cronPeriod
  expiryPeriod := (s.given? "expiry_period" .duration).getD Settings.builtIn.expiryPeriod
  memoryPeriod := (s.given? "memory_sweep_period" .duration).getD Settings.builtIn.memoryPeriod
  staleAfter := (s.given? "gc_ratio" .duration).getD Settings.builtIn.staleAfter
  statsPeriod := (s.given? "stats_period" .duration).getD Settings.builtIn.statsPeriod
  logLevel := (s.get? "log_level").getD Settings.builtIn.logLevel
  logFile := s.get? "log_file"
  pidFile := s.get? "pid_file"

/-- **Reading settings is a check of the typed keys**, one after the
other. -/
theorem ofSource_eq (s : Source) :
    Settings.ofSource s = s.checkAll Settings.typed >>= fun _ => .ok s.given := by
  unfold Settings.ofSource
  simp only [readPort_eq, readCount_eq, readSize_eq, readDuration_eq, bind_map_left]
  simp only [checkAll, Settings.typed, bind_assoc]
  rfl

/-! ## What a source gives -/

theorem check_eq_ok {kind : Kind} :
    s.check key kind = .ok () ↔ ¬ Settings.Unreadable s.get? (key, kind) := by
  unfold check Settings.Unreadable
  cases s.get? key with
  | none => exact iff_of_true rfl (by simp)
  | some text =>
    simp only [Option.some.injEq, exists_eq_left', ← Kind.read?_eq_none]
    cases kind.read? text.toList with
    | none => simp
    | some n => simp

theorem check_eq_error {kind : Kind} :
    s.check key kind = .error e ↔ ∃ text, s.get? key = some text ∧ kind.Refuses key text e := by
  unfold check
  cases s.get? key with
  | none => simp
  | some text =>
    simp only [Option.some.injEq, exists_eq_left', Kind.refuses_iff]
    cases kind.read? text.toList with
    | none => simp [eq_comm]
    | some n => simp

/-- A text of which something is said cannot be read. -/
theorem unreadable_of_refuses {kind : Kind} {text : String} (htext : s.get? key = some text)
    (h : kind.Refuses key text e) : Settings.Unreadable s.get? (key, kind) :=
  ⟨text, htext, Kind.read?_eq_none.1 (Kind.refuses_iff.1 h).1⟩

/-- **Keys are checked up to the first whose text cannot be read**, and of
this one the complaint is. -/
theorem checkAll_cases (s : Source) (keys : List (String × Kind)) :
    (s.checkAll keys = .ok () ∧ ∀ typed ∈ keys, ¬ Settings.Unreadable s.get? typed) ∨
      ∃ before key kind text e, s.checkAll keys = .error e ∧
        First (Settings.Unreadable s.get?) keys before (key, kind) ∧
        s.get? key = some text ∧ kind.Refuses key text e := by
  induction keys with
  | nil => exact .inl ⟨rfl, fun _ => nofun⟩
  | cons typed rest ih =>
    obtain ⟨key, kind⟩ := typed
    cases hcheck : s.check key kind with
    | error e =>
      obtain ⟨text, htext, hrefuses⟩ := check_eq_error.1 hcheck
      refine .inr ⟨[], key, kind, text, e, by rw [checkAll, hcheck]; rfl, ?_, htext, hrefuses⟩
      exact (first_cons_of_bad (unreadable_of_refuses htext hrefuses)).2 ⟨rfl, rfl⟩
    | ok _ =>
      have hfine := check_eq_ok.1 hcheck
      have hrest : s.checkAll ((key, kind) :: rest) = s.checkAll rest := by
        rw [checkAll, hcheck]
        rfl
      rcases ih with ⟨hok, hall⟩ | ⟨before, key', kind', text, e, herror, hfirst, hsaid⟩
      · exact .inl ⟨hrest.trans hok, List.forall_mem_cons.2 ⟨hfine, hall⟩⟩
      · exact .inr ⟨_, key', kind', text, e, hrest.trans herror,
          (first_cons_of_not_bad hfine).2 ⟨before, rfl, hfirst⟩, hsaid⟩

/-- What is given for a key is what its text is read as, or the default. -/
theorem gives_given {kind : Kind} (h : ¬ Settings.Unreadable s.get? (key, kind)) (default : Nat) :
    kind.Gives (s.get? key) default ((s.given? key kind).getD default) := by
  unfold given? Settings.Unreadable at *
  cases htext : s.get? key with
  | none => rfl
  | some text =>
    rw [htext] at h
    simp only [Option.some.injEq, exists_eq_left', ← Kind.read?_eq_none] at h
    obtain ⟨n, hread⟩ := Option.ne_none_iff_exists'.1 h
    simp only [Option.bind_some, hread, Option.getD_some]
    exact Kind.read?_eq_some.1 hread

/-- The default of the longest time to live, in seconds. -/
theorem signedSeconds_month : Settings.signedSeconds 2592000000 = Settings.builtIn.maxItemTtl := by
  decide

/-- When all texts can be read, what is given follows the source. -/
theorem follows_given (h : ∀ typed ∈ Settings.typed, ¬ Settings.Unreadable s.get? typed) :
    s.given.Follows s.get? := by
  simp only [Settings.typed, List.forall_mem_cons] at h
  obtain ⟨hport, hclients, hidle, hrequest, hresponse, httl, hmemory, hkey, hvalue, hcompress,
    hcron, hexpiry, hsweep, hstale, hstats, -⟩ := h
  refine
    { address := rfl
      port := gives_given hport _
      unixSocket := rfl
      maxClients := gives_given hclients _
      maxIdle := gives_given hidle _
      maxRequest := gives_given hrequest _
      maxResponse := gives_given hresponse _
      maxItemTtl := ⟨_, gives_given httl _, ?_⟩
      maxMemory := gives_given hmemory _
      maxKey := gives_given hkey _
      maxValue := gives_given hvalue _
      compressAbove := gives_given hcompress _
      cronPeriod := gives_given hcron _
      expiryPeriod := gives_given hexpiry _
      memoryPeriod := gives_given hsweep _
      staleAfter := gives_given hstale _
      statsPeriod := gives_given hstats _
      logLevel := rfl
      logFile := rfl
      pidFile := rfl }
  exact (congrArg _ signedSeconds_month.symm).trans (Option.getD_map _ _ _)

end Source

namespace Settings

variable {s : Source} {c : Settings} {e : SettingsError}

/-- A source gives settings only when each of its texts can be read, and
then what is given for its keys. -/
theorem ofSource_eq_ok :
    ofSource s = .ok c ↔ (∀ key ∈ typed, ¬ Unreadable s.get? key) ∧ c = s.given := by
  rw [Source.ofSource_eq]
  rcases s.checkAll_cases typed with ⟨hok, hall⟩ | ⟨_, _, _, _, e, herror, hfirst, -⟩
  · rw [hok, and_iff_right hall]
    exact ⟨fun h => (Except.ok.inj h).symm, fun h => congrArg Except.ok h.symm⟩
  · rw [herror]
    exact iff_of_false nofun fun h => h.1 _ hfirst.mem hfirst.2.1

/-- **A source gives settings that follow it**, key by key. -/
theorem follows_of_ok (h : ofSource s = .ok c) : c.Follows s.get? := by
  obtain ⟨hall, rfl⟩ := ofSource_eq_ok.1 h
  exact Source.follows_given hall

/-- **A source gives no settings just when some text cannot be read**, and
the first of these is reported. -/
theorem ofSource_eq_error : ofSource s = .error e ↔ Refused s.get? e := by
  rw [Source.ofSource_eq]
  rcases s.checkAll_cases typed with
    ⟨hok, hall⟩ | ⟨before, key, kind, text, e', herror, hfirst, htext, hrefuses⟩
  · rw [hok]
    refine iff_of_false nofun ?_
    rintro ⟨_, key, kind, _, hfirst, -⟩
    exact hall (key, kind) hfirst.mem hfirst.2.1
  · rw [herror]
    constructor
    · rintro ⟨⟩
      exact ⟨before, key, kind, text, hfirst, htext, hrefuses⟩
    · rintro ⟨before', key', kind', text', hfirst', htext', hrefuses'⟩
      obtain ⟨rfl, hsame⟩ := hfirst.unique hfirst'
      obtain ⟨rfl, rfl⟩ := Prod.mk.inj hsame
      obtain rfl := Option.some.inj (htext.symm.trans htext')
      rw [(Kind.refuses_iff.1 hrefuses').2, ← (Kind.refuses_iff.1 hrefuses).2]
      rfl

end Settings

end PrefixCache

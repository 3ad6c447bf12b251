import PrefixCache.Request.Fields
import PrefixCache.Settings.Source
import PrefixCache.Store.Basic
/-!
# Settings

The settings of a server, read from a source over the defaults. Sizes and
durations are kept as they are read; where a limit is handed to the store
as a signed number of seconds, it is read in two's complement.
-/

namespace PrefixCache

/-- The settings of a server. Sizes are bytes and durations milliseconds,
but for `maxItemTtl`, which is in seconds. -/
structure Settings where
  address : String := "127.0.0.1"
  port : Nat := 10128
  unixSocket : Option String := none
  maxClients : Nat := 1024
  /-- Clients that are silent for longer are dropped. -/
  maxIdle : Nat := 1000
  maxRequest : Nat := 4 * 1024 * 1024
  maxResponse : Nat := 4 * 1024 * 1024
  maxItemTtl : Int := 2592000
  maxMemory : Nat := 2 * 1024 * 1024 * 1024
  maxKey : Nat := 512
  maxValue : Nat := 1024 * 1024
  compressAbove : Nat := 40960
  cronPeriod : Nat := 100
  expiryPeriod : Nat := 15000
  memoryPeriod : Nat := 5000
  /-- Items unused for this long may be evicted. -/
  staleAfter : Nat := 3600000
  statsPeriod : Nat := 15000
  logLevel : String := "info"
  logFile : Option String := none
  pidFile : Option String := none
  /-- The build that runs, which no source sets. -/
  build : Build := {}
  deriving Repr, DecidableEq

namespace Settings

/-- The whole seconds of a duration, as a signed number. -/
def signedSeconds (millis : Nat) : Int := signed64 (millis / 1000)

/-- Reads the settings of a source. Of several bad texts, the first in
this order is reported. -/
def ofSource (s : Source) : Except SettingsError Settings := do
  let d : Settings := {}
  let port ← s.readFitting "port" "a port number" (fun n => 0 ≤ n && n < 65536) d.port
  let maxClients ← s.readFitting "max_clients" "a positive integer" (fun n => 0 < n) d.maxClients
  let maxIdle ← s.readDuration "max_idletime"
  let maxRequest ← s.readSize "max_request_size"
  let maxResponse ← s.readSize "max_response_size"
  let maxItemTtl ← s.readDuration "max_item_ttl"
  let maxMemory ← s.readSize "max_memory"
  let maxKey ← s.readSize "max_key_size"
  let maxValue ← s.readSize "max_value_size"
  let compressAbove ← s.readSize "compression"
  let cronPeriod ← s.readDuration "cron_period"
  let expiryPeriod ← s.readDuration "expiry_period"
  let memoryPeriod ← s.readDuration "memory_sweep_period"
  let staleAfter ← s.readDuration "gc_ratio"
  let statsPeriod ← s.readDuration "stats_period"
  return {
    address := (s.get? "address").getD d.address
    port
    unixSocket := s.get? "unix_socket"
    maxClients
    maxIdle := maxIdle.getD d.maxIdle
    maxRequest := maxRequest.getD d.maxRequest
    maxResponse := maxResponse.getD d.maxResponse
    maxItemTtl := (maxItemTtl.map signedSeconds).getD d.maxItemTtl
    maxMemory := maxMemory.getD d.maxMemory
    maxKey := maxKey.getD d.maxKey
    maxValue := maxValue.getD d.maxValue
    compressAbove := compressAbove.getD d.compressAbove
    cronPeriod := cronPeriod.getD d.cronPeriod
    expiryPeriod := expiryPeriod.getD d.expiryPeriod
    memoryPeriod := memoryPeriod.getD d.memoryPeriod
    staleAfter := staleAfter.getD d.staleAfter
    statsPeriod := statsPeriod.getD d.statsPeriod
    logLevel := (s.get? "log_level").getD d.logLevel
    logFile := s.get? "log_file"
    pidFile := s.get? "pid_file" }

/-- Where the server listens. -/
def bindAddress (c : Settings) : String := s!"{c.address}:{c.port}"

/-- The limits of the store. -/
def storeLimits (c : Settings) : StoreLimits :=
  { maxMemory := c.maxMemory
    maxItemTtl := c.maxItemTtl
    compressAbove := c.compressAbove
    staleAfter := signedSeconds c.staleAfter
    build := c.build }

/-- The limits of fields. -/
def fieldLimits (c : Settings) : FieldLimits := { maxKey := c.maxKey, maxValue := c.maxValue }

end Settings

end PrefixCache

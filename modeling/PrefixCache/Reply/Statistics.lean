import PrefixCache.Decimal.Fixed
import PrefixCache.Reply.Basic
import PrefixCache.Store.Basic
/-!
# Statistics

The statistics are a row of named figures: what is running, on which build,
what has been counted, and four averages with two places.
-/

namespace PrefixCache

/-- The version of the server. -/
def version : String := "0.1.0"

namespace Reply

/-- A figure that is a number. -/
def figure (name : String) (n : Int) : Bytes × Value :=
  (Bytes.ofText name, .number (Int64.ofInt n))

/-- A figure that is a text. -/
def caption (name text : String) : Bytes × Value :=
  (Bytes.ofText name, .plain (Bytes.ofText text))

/-- Averages have two places. -/
def average (name : String) (x : Float) : Bytes × Value := caption name (Decimal.fixed 2 x)

/-- The statistics of a store. -/
def statistics (s : Store) : Reply :=
  let c := s.counters
  .pairs
    [ caption "server_version" version
    , caption "server_build_datetime" s.limits.build.profile
    , caption "server_allocator" "system"
    , caption "server_arch" s.limits.build.machine
    , figure "server_started" c.started
    , figure "server_time" s.now
    , figure "first_item_seen" c.firstInsertion
    , figure "last_item_seen" c.lastInsertion
    , figure "total_items" c.items
    , figure "total_compressed_items" c.compressedItems
    , figure "total_clients" c.clients
    , figure "total_cron_done" c.cronRuns
    , figure "total_connections" c.connections
    , figure "total_requests" c.requests
    , figure "memory_available" c.available
    , figure "memory_usable" s.limits.maxMemory
    , figure "memory_used" c.memoryUsed
    , figure "memory_peak" c.memoryPeak
    , average "memory_fragmentation" c.fragmentation
    , average "item_size_avg" c.averageSize
    , average "compr_rate_avg" c.averageSaving
    , average "reqs_per_client_avg" c.averageRequests ]

end Reply

end PrefixCache

import PrefixCache.Bytes
import PrefixCache.Text.Blank
import PrefixCache.Text.Lossy
import PrefixCache.Text.HexDump
import PrefixCache.Decimal.Reading
import PrefixCache.Decimal.Fixed
import PrefixCache.Lz4.Block
import PrefixCache.Lz4.Search
import PrefixCache.Lz4.Reading
import PrefixCache.Compression
import PrefixCache.Trie.Walk
import PrefixCache.Store
import PrefixCache.Reply.Reading
import PrefixCache.Request.Dispatch
import PrefixCache.Report
import PrefixCache.Settings.CommandLine
import PrefixCache.Connection.Link
import PrefixCache.Server.Binding
import PrefixCache.Main
import PrefixCache.Proofs.Store.Accounting
import PrefixCache.Proofs.Store.Locks
import PrefixCache.Proofs.Store.Expiry
import PrefixCache.Proofs.Store.Members
import PrefixCache.Server.Rota
import PrefixCache.Proofs.Trie.Search
import PrefixCache.Proofs.Trie.Visiting
import PrefixCache.Proofs.Trie.Permanence
import PrefixCache.Proofs.Store.Lifetime
import PrefixCache.Proofs.Request.Refusing
import PrefixCache.Proofs.Store.Relocking
import PrefixCache.Proofs.Store.Weighing
import PrefixCache.Proofs.Request.Budget
import PrefixCache.Proofs.Connection.Turning
import PrefixCache.Proofs.Connection.Transcript
import PrefixCache.Proofs.Connection.Framing
import PrefixCache.Proofs.Server.History
import PrefixCache.Proofs.Server.Schedule
import PrefixCache.Proofs.Request.Replying
import PrefixCache.Proofs.Request.Scope
import PrefixCache.Proofs.Request.Addressing
import PrefixCache.Proofs.Request.Transparency
import PrefixCache.Proofs.Store.Evicting
import PrefixCache.Proofs.Connection.Stopping
import PrefixCache.Proofs.Server.Conduct
import PrefixCache.Proofs.Store.Looking
import PrefixCache.Proofs.Request.Grammar
import PrefixCache.Proofs.Store.Tenure
import PrefixCache.Proofs.Store.Succession
import PrefixCache.Proofs.Store.Ageing
import PrefixCache.Proofs.Settings.Layers
import PrefixCache.Proofs.Settings.Bounds

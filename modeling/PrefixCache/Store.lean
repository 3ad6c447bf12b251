import PrefixCache.Store.Keys
import PrefixCache.Store.Stems
import PrefixCache.Store.Sweep
/-!
# The store, whole

Gathers the operations on one key, the operations on a stem, and the
sweeps.
-/

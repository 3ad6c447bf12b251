import PrefixCache.Server.Hub
/-!
# Lending

A value that is kept as it came is not copied: it shares its bytes with
the buffer it was read into. The hub keeps a book of that. Whatever stores
a value enters where it came from, so an entry counts exactly as long as
the value under its key is still one that was kept as it came.

The book changes no answer and no item (`store_lend`). All it is asked is
whether a buffer may be used again.
-/

namespace PrefixCache

namespace Hub

/-- The value under a key is kept as it came, and has bytes to share. -/
def sharesBytes (h : Hub) (key : Bytes) : Bool :=
  match (h.store.trie.find? key).map Item.value with
  | some (.plain data) => data != []
  | _ => false

/-- The keys a request has just stored a value under. Locked items have
kept the value they had. -/
def keysWritten (h : Hub) (r : Request) (reply : Reply) : List Bytes :=
  match reply, Command.ofRequest h.fields r with
  | .value _, .ok (.set key _ _) => [key]
  | .value _, .ok (.allSet stem _) =>
    let written := fun m : Bytes × Item => decide (¬ m.2.Locked h.store.now)
    ((h.store.trie.search stem).filter written).map Prod.fst
  | _, _ => []

/-- Enters which buffer the values under some keys came in. -/
def lend (h : Hub) (b : BufferId) (keys : List Bytes) : Hub :=
  { h with loans := keys.foldl (fun loans key => (loans.insert key b).2) h.loans }

/-- The value under a key shares its bytes with a buffer. -/
def borrows (h : Hub) (key : Bytes) (b : BufferId) : Bool :=
  h.loans.find? key == some b && h.sharesBytes key

/-- Stores a value that came in no buffer. -/
def set (h : Hub) (key data : Bytes) (ttl : Int) : Except StoreError Value × Hub :=
  match h.store.set key data ttl with
  | (.ok v, store) => (.ok v, { h with store, loans := (h.loans.remove key).2 })
  | (.error e, store) => (.error e, { h with store })

@[simp] theorem store_lend (h : Hub) (b : BufferId) (keys : List Bytes) :
    (h.lend b keys).store = h.store := rfl

@[simp] theorem clients_lend (h : Hub) (b : BufferId) (keys : List Bytes) :
    (h.lend b keys).clients = h.clients := rfl

end Hub

end PrefixCache

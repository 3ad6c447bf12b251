import PrefixCache.Server.Run
/-!
# Binding a server

Before a server runs it takes its address, clears away and takes its
socket, and writes its pid file. The first of these that fails is
reported, and the server does not begin.
-/

namespace PrefixCache

/-- Why a server cannot begin. -/
inductive BindError where
  | address (address : String)
  | staleSocket (path : String)
  | socket (path : String)
  | pidFile (path : String)
  deriving Repr, DecidableEq

/-- The wording of a bind error. -/
def BindError.message : BindError → String
  | address text => s!"failed to bind {text}"
  | staleSocket path => s!"failed to remove stale socket {path}"
  | socket path => s!"failed to bind unix socket {path}"
  | pidFile path => s!"failed to write pid file {path}"

/-- What a host lets a server do. -/
structure Host where
  /-- An address can be listened at. -/
  canListen : String → Bool
  /-- What stands at a path, if anything does, can be removed. -/
  canClear : String → Bool
  /-- A file can be made at a path. -/
  canCreate : String → Bool
  /-- A socket can be made at a path. -/
  canOpenSocket : String → Bool

/-- Checks what a server needs, in order. -/
def Settings.bind (c : Settings) (host : Host) : Except BindError Unit :=
  if !host.canListen c.address then .error (.address c.bindAddress)
  else if let some path := c.unixSocket.filter fun p => !host.canClear p then
    .error (.staleSocket path)
  else if let some path := c.unixSocket.filter fun p => !host.canOpenSocket p then
    .error (.socket path)
  else if let some path := c.pidFile.filter fun p => !host.canCreate p then
    .error (.pidFile path)
  else .ok ()

end PrefixCache

import TftAnalytics.Peers.Model.Member
import TftAnalytics.Metastore.Model.History
/-!
# Metastore — the server of a node

A server has a tree, with the history of what it did, and a ring. Its
operations are those of its tree; a peer that dies leaves the ring.
-/

namespace TftAnalytics

namespace Metastore

open Hasher Peers

/-- `Server`. -/
structure Server where
  self : GoString
  ring : HashRing
  lsm : History

/-- `NewServer`. -/
def newServer (self : GoString) (lsm : History) (peers : List GoString) : Server :=
  { self := self, ring := newRing peers, lsm := lsm }

/-- `onPeerDead`. -/
def Server.onPeerDead (addr : GoString) (s : Server) : Server :=
  { s with ring := s.ring.removeNode addr }

/-- An operation of the server's tree. -/
def Server.act (env : Env) (maxMemBytes : ℤ) (a : Action) (s : Server) : Server :=
  { s with lsm := s.lsm.step env maxMemBytes a }

/-- A server as a component. -/
def serverHost (env : Env) (maxMemBytes : ℤ) : Host Server Action where
  ring := Server.ring
  onPeerDead := Server.onPeerDead
  serve := Server.act env maxMemBytes
  ring_onPeerDead := fun _ _ => rfl
  ring_serve := fun _ _ => rfl

end Metastore

end TftAnalytics

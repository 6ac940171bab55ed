import TftAnalytics.Gossip.Model.Node
import TftAnalytics.Hasher.Model.HashRing
import Mathlib.Data.List.Perm.Basic
/-!
# Peers — a node with a ring and a failure detector

A broker and a metastore node are built alike: a component that owns a
hash ring, a gossip node beside it, and `onDead` wired to the component's
`onPeerDead`. Packets of any content may arrive at any time.
-/

namespace TftAnalytics

namespace Peers

open Gossip Hasher

/-- The ring `NewServer` and `NewBroker` make of the peers. -/
def newRing (peers : List GoString) : HashRing :=
  peers.foldl (HashRing.addNode crc32) (.new DefaultVirtualNodes)

/-- The list of peers `main` makes of `SELF` and the entries of `PEERS`:
the node first, and no empty ones. -/
def mainPeers (self : GoString) (peersEnv : List GoString) : List GoString :=
  self :: peersEnv.filter fun p => p ≠ []

/-- **A component with a ring**: what it does when a peer dies takes the
peer off the ring, and what it does otherwise leaves the ring alone. -/
structure Host (σ Op : Type) where
  ring : σ → HashRing
  onPeerDead : GoString → σ → σ
  serve : Op → σ → σ
  ring_onPeerDead : ∀ addr s, ring (onPeerDead addr s) = (ring s).removeNode addr
  ring_serve : ∀ op s, ring (serve op s) = ring s

/-- A running node. `pending` are the members a tick has declared dead and
whose callback is to come, `deaths` all that it has logged as `declared
DEAD`. -/
structure Member (σ : Type) where
  gossip : GossipNode
  clock : Time
  host : σ
  pending : List GoString
  deaths : List GoString

/-- What happens at a node. A tick walks the members in any order, and its
callbacks run one by one before the next tick; `merge` runs beside it. -/
inductive MemberEvent (Op : Type) where
  | advance (d : ℕ)
  | tick (dead : List GoString)
  | callback
  | merge (incoming : List MemberState)
  | serve (op : Op)

namespace Member

variable {σ Op : Type}

/-- A node as `main` starts it. -/
def start (self : GoString) (peersEnv : List GoString) (host : σ) : Member σ :=
  { gossip := .new self (mainPeers self peersEnv) 0
    clock := 0
    host := host
    pending := []
    deaths := [] }

/-- One event. -/
def step (H : Host σ Op) (m : Member σ) : MemberEvent Op → Member σ
  | .advance d => { m with clock := m.clock + d }
  | .tick dead =>
    if m.pending = [] ∧ dead.Perm (m.gossip.newlyDead m.clock) then
      { m with
        gossip := m.gossip.tick m.clock
        pending := dead
        deaths := m.deaths ++ dead }
    else m
  | .callback =>
    match m.pending with
    | [] => m
    | addr :: rest => { m with host := H.onPeerDead addr m.host, pending := rest }
  | .merge incoming => { m with gossip := m.gossip.merge m.clock incoming }
  | .serve op => { m with host := H.serve op m.host }

/-- A run. -/
def run (H : Host σ Op) (m : Member σ) (evs : List (MemberEvent Op)) : Member σ :=
  evs.foldl (step H) m

/-- The view holds `addr` as dead. -/
def HoldsDead (m : Member σ) (addr : GoString) : Prop :=
  ∃ s ∈ m.gossip.members.lookup addr, s.status = .dead

instance (m : Member σ) (addr : GoString) : Decidable (m.HoldsDead addr) :=
  inferInstanceAs (Decidable (∃ s ∈ m.gossip.members.lookup addr, s.status = .dead))

end Member

end Peers

end TftAnalytics

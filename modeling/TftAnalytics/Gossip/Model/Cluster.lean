import TftAnalytics.Gossip.Model.Node
import Mathlib.Data.List.Perm.Basic
/-!
# Gossip — a cluster over a lossy network

The nodes of a cluster, each with its own clock, and the packets between
them. Packets are delivered or lost in any order, a node may crash at any
time, and an event that is not enabled changes nothing.
-/

namespace TftAnalytics

namespace Gossip

/-- One UDP packet: a membership view on its way. -/
structure Packet where
  src : GoString
  dst : GoString
  payload : List MemberState

/-- A node as a process: its view, its clock, and whether it has crashed. -/
structure Process where
  gossip : GossipNode
  clock : Time
  crashed : Bool

/-- The processes, by identity, and the packets in flight. -/
structure Cluster where
  procs : GoString → Option Process
  flight : List Packet

/-- What happens in a cluster. A view is sent in whatever order the map is
listed, to whatever peers the shuffle puts first. -/
inductive Event where
  | advance (node : GoString) (d : ℕ)
  | tick (node : GoString)
  | disseminate (node : GoString) (view : List MemberState) (targets : List GoString)
  | deliver (i : ℕ)
  | lose (i : ℕ)
  | crash (node : GoString)

namespace Cluster

/-- The cluster of a configuration: every node with its list of peers. -/
def init (config : AList fun _ : GoString => List GoString) : Cluster :=
  { procs := fun n => (config.lookup n).map fun peers =>
      { gossip := .new n peers 0, clock := 0, crashed := false }
    flight := [] }

/-- The process of a node that has not crashed. -/
def live (c : Cluster) (n : GoString) : Option Process := (c.procs n).filter fun p => !p.crashed

/-- A change of one process. -/
def update (c : Cluster) (n : GoString) (f : Process → Process) : Cluster :=
  { c with procs := fun x => if x = n then (c.procs n).map f else c.procs x }

/-- A change of one process, unless it has crashed. -/
def updateLive (c : Cluster) (n : GoString) (f : Process → Process) : Cluster :=
  c.update n fun p => if p.crashed then p else f p

/-- The targets the shuffle of `disseminate` may come up with. -/
def Picks (peers targets : List GoString) : Prop :=
  targets.Nodup ∧ (∀ t ∈ targets, t ∈ peers) ∧ targets.length = min fanout peers.length

instance (peers targets : List GoString) : Decidable (Picks peers targets) :=
  inferInstanceAs (Decidable (_ ∧ _))

/-- One event. -/
def step (c : Cluster) : Event → Cluster
  | .advance n d => c.update n fun p => { p with clock := p.clock + d }
  | .tick n => c.updateLive n fun p => { p with gossip := p.gossip.tick p.clock }
  | .disseminate n view targets =>
    match c.live n with
    | none => c
    | some p =>
      if view.Perm p.gossip.snapshot ∧ Picks p.gossip.peers targets then
        { c with flight := c.flight ++ targets.map fun t => ⟨n, t, view⟩ }
      else c
  | .deliver i =>
    match c.flight[i]? with
    | none => c
    | some pkt =>
      updateLive { c with flight := c.flight.eraseIdx i } pkt.dst fun p =>
        { p with gossip := p.gossip.merge p.clock pkt.payload }
  | .lose i => { c with flight := c.flight.eraseIdx i }
  | .crash n => c.update n fun p => { p with crashed := true }

/-- A run. -/
def run (c : Cluster) (evs : List Event) : Cluster := evs.foldl step c

/-- The merge an event makes: at which process, and of which packet. -/
def merges (c : Cluster) : Event → Option (Process × Packet)
  | .deliver i => c.flight[i]?.bind fun pkt => (c.live pkt.dst).map fun p => (p, pkt)
  | _ => none

/-- **`b` is gone**: it has crashed, and nothing it sent is in flight. -/
def Quiet (c : Cluster) (b : GoString) : Prop :=
  (∃ p ∈ c.procs b, p.crashed = true) ∧ ∀ pkt ∈ c.flight, pkt.src ≠ b

end Cluster

/-- Between two views, no heartbeat of `b` moves forward and no `b`
suspected or dead comes alive. -/
def Untouched (b : GoString) (g g' : GossipNode) : Prop :=
  ∀ m ∈ g.members.lookup b, ∀ m' ∈ g'.members.lookup b,
    m'.heartbeatAt ≤ m.heartbeatAt ∧ (m'.status = .alive → m.status = .alive)

/-- **Detection is driven by the member**: along a run, no merge at a
survivor touches a node that is gone. -/
def Frozen (c : Cluster) (b : GoString) (evs : List Event) : Prop :=
  ∀ pre ev, pre ++ [ev] <+: evs → (c.run pre).Quiet b → ∀ x ∈ (c.run pre).merges ev,
    Untouched b x.1.gossip (x.1.gossip.merge x.1.clock x.2.payload)

/-- **A survivor's ticks report a node that is gone**, suspected when its
heartbeat is old enough for that, and dead when it is old enough for
that: the heartbeat the survivor had of it when it was gone. -/
def Detects (c : Cluster) (b : GoString) (evs : List Event) : Prop :=
  ∀ pre mid, pre ++ mid <+: evs → (c.run pre).Quiet b →
    ∀ n, ∀ p ∈ (c.run pre).live n, ∀ m ∈ p.gossip.members.lookup b,
      ∀ p' ∈ (c.run (pre ++ mid)).live n,
        ∃ m' ∈ (p'.gossip.tick p'.clock).members.lookup b,
          (suspectAfter ≤ p'.clock - m.heartbeatAt → m'.status ≠ .alive) ∧
          (deadAfter ≤ p'.clock - m.heartbeatAt → m'.status = .dead)

/-- What a merge may find about `b`, at the reading `now`, without touching
it: news no newer than its own that `b` is not alive; or anything that
leaves the status as it is, where the heartbeat is as fresh as the clock. -/
def Harmless (now : Time) (cur inc : MemberState) : Prop :=
  (inc.status ≠ .alive ∧ inc.incarnation ≤ cur.incarnation) ∨
    (now ≤ cur.heartbeatAt ∧
      (cur.status = .alive ∨ (cur.status = .dead ∧ inc.incarnation < cur.incarnation)))

/-- Along a run, every packet merged at a survivor is harmless to a node
that is gone. -/
def AllHarmless (c : Cluster) (b : GoString) (evs : List Event) : Prop :=
  ∀ pre ev, pre ++ [ev] <+: evs → (c.run pre).Quiet b → ∀ x ∈ (c.run pre).merges ev,
    ∀ cur ∈ x.1.gossip.members.lookup b, ∀ inc ∈ x.2.payload, inc.addr = b →
      Harmless x.1.clock cur inc

end Gossip

end TftAnalytics

import TftAnalytics.Common.Bytes
import Mathlib.Data.List.AList
/-!
# Gossip — one node's view

`gossip.go` without its sockets: the members a node knows, the ageing of
`tick`, the fold of `merge`, and the snapshot that is sent around. A
reading of `time.Now` is a number of nanoseconds on the node's own clock,
and what a packet says of heartbeats is carried but never read. Every
node writes one of the three status texts, and no others arrive.
-/

namespace TftAnalytics

namespace Gossip

/-- A reading of a node's monotonic clock, and `time.Duration`, in
nanoseconds. -/
abbrev Time := ℤ

/-- `time.Second`. -/
def second : Time := 1000000000

/-- `suspectAfter`. -/
def suspectAfter : Time := 10 * second

/-- `deadAfter`. -/
def deadAfter : Time := 20 * second

/-- `fanout`. -/
def fanout : ℕ := 3

/-- The status texts. -/
inductive Status where
  | alive
  | suspected
  | dead
  deriving DecidableEq

/-- `MemberState`. -/
structure MemberState where
  addr : GoString
  heartbeatAt : Time
  incarnation : UInt64
  status : Status
  deriving DecidableEq

/-- `GossipNode`. -/
structure GossipNode where
  self : GoString
  incarnation : UInt64
  members : AList fun _ : GoString => MemberState

namespace GossipNode

/-- A member as `New` enters it. -/
def fresh (now : Time) (addr : GoString) : MemberState :=
  { addr := addr, heartbeatAt := now, incarnation := 0, status := .alive }

/-- `New`: the node itself, and the peers that are named and not itself. -/
def new (self : GoString) (peers : List GoString) (now : Time) : GossipNode :=
  { self := self
    incarnation := 0
    members := (peers.filter fun p => p ≠ [] ∧ p ≠ self).foldl (fun m p => m.insert p (fresh now p))
      (AList.singleton self (fresh now self)) }

/-! ## Ageing -/

/-- The loop body of `tick` on a member other than the node. -/
def ageMember (now : Time) (m : MemberState) : MemberState :=
  let age := now - m.heartbeatAt
  if deadAfter ≤ age ∧ m.status ≠ .dead then { m with status := .dead }
  else if suspectAfter ≤ age ∧ age < deadAfter ∧ m.status = .alive then
    { m with status := .suspected }
  else m

/-- What `tick` makes of one member: the node's own heartbeat is set. -/
def tickMember (g : GossipNode) (now : Time) (addr : GoString) (m : MemberState) : MemberState :=
  if addr = g.self then { m with heartbeatAt := now, incarnation := g.incarnation }
  else ageMember now m

/-- `tick`, on the members. -/
def tick (g : GossipNode) (now : Time) : GossipNode :=
  { g with members :=
      ⟨g.members.entries.map fun s => ⟨s.1, g.tickMember now s.1 s.2⟩, by
        simpa [List.NodupKeys, List.keys, Function.comp_def] using g.members.nodupKeys⟩ }

/-- The members `tick` declares dead, for which `onDead` is called. -/
def newlyDead (g : GossipNode) (now : Time) : List GoString :=
  (g.members.entries.filter fun s =>
    s.1 ≠ g.self ∧ deadAfter ≤ now - s.2.heartbeatAt ∧ s.2.status ≠ .dead).map (·.1)

/-! ## Merging -/

/-- The loop body of `merge` on a member the node knows. -/
def refresh (now : Time) (cur inc : MemberState) : MemberState :=
  if cur.incarnation < inc.incarnation then
    { cur with incarnation := inc.incarnation, heartbeatAt := now, status := .alive }
  else if inc.incarnation = cur.incarnation ∧ inc.status = .alive ∧ cur.status ≠ .alive then
    { cur with heartbeatAt := now, status := .alive }
  else if inc.status = .alive then
    { cur with
      heartbeatAt := now
      status := if cur.status = .suspected then .alive else cur.status }
  else cur

/-- A member as `merge` enters it. -/
def learned (now : Time) (inc : MemberState) : MemberState :=
  { addr := inc.addr, heartbeatAt := now, incarnation := inc.incarnation, status := .alive }

/-- The loop body of `merge`. Of itself the node refutes what is not
`alive`, a member it does not know it enters as alive. -/
def mergeOne (now : Time) (g : GossipNode) (inc : MemberState) : GossipNode :=
  if inc.addr = g.self then
    if inc.status ≠ .alive ∧ g.incarnation ≤ inc.incarnation then
      { g with incarnation := inc.incarnation + 1 }
    else g
  else
    match g.members.lookup inc.addr with
    | none => { g with members := g.members.insert inc.addr (learned now inc) }
    | some cur => { g with members := g.members.insert inc.addr (refresh now cur inc) }

/-- `merge`. -/
def merge (g : GossipNode) (now : Time) (incoming : List MemberState) : GossipNode :=
  incoming.foldl (mergeOne now) g

/-! ## Views -/

/-- `snapshotLocked`. -/
def snapshot (g : GossipNode) : List MemberState := g.members.entries.map (·.2)

/-- The peers `disseminate` chooses from: all but the dead. -/
def peers (g : GossipNode) : List GoString :=
  (g.members.entries.filter fun s => s.1 ≠ g.self ∧ s.2.status ≠ .dead).map (·.1)

/-- `IsAlive`. -/
def isAlive (g : GossipNode) (addr : GoString) : Bool :=
  decide (addr = g.self) || (g.members.lookup addr).any fun m => m.status = .alive

end GossipNode

/-- Three nodes, each with the other two for peers. -/
def trio : AList fun _ : GoString => List GoString :=
  ⟨[⟨[97], [[98], [99]]⟩, ⟨[98], [[97], [99]]⟩, ⟨[99], [[97], [98]]⟩], by
    simp [List.NodupKeys, List.keys]⟩

end Gossip

end TftAnalytics

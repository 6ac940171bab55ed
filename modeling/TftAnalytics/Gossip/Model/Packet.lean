import TftAnalytics.Gossip.Model.Node
/-!
# Gossip — what arrives

A packet comes from an open socket. `json.Unmarshal` makes a list of
pointers of it, in which a JSON `null` is a nil pointer, an address is any
text, the empty one included, and so is a status. The loop of `merge` reads
every element through its pointer: with a nil pointer that is a panic,
which no `recover` stands behind, and what a panic leaves is `none`.
-/

namespace TftAnalytics

namespace Gossip

/-- `StatusAlive`. -/
def statusAlive : GoString := ascii "alive"

/-- `StatusSuspected`. -/
def statusSuspected : GoString := ascii "suspected"

/-- A `MemberState` as it is decoded. -/
structure WireMember where
  addr : GoString
  heartbeatAt : Time
  incarnation : UInt64
  status : GoString
  deriving DecidableEq

/-- A decoded list: a null element is a nil pointer. -/
abbrev Incoming := List (Option WireMember)

namespace GossipNode

/-- The loop body of `merge` on a member the node knows. -/
def hear (now : Time) (cur : MemberState) (inc : WireMember) : MemberState :=
  if cur.incarnation < inc.incarnation then
    { cur with incarnation := inc.incarnation, heartbeatAt := now, status := .alive }
  else if inc.incarnation = cur.incarnation ∧ inc.status = statusAlive ∧ cur.status ≠ .alive then
    { cur with heartbeatAt := now, status := .alive }
  else if inc.status = statusAlive then
    { cur with
      heartbeatAt := now
      status := if cur.status = .suspected then .alive else cur.status }
  else cur

/-- A member as `merge` enters it. -/
def meet (now : Time) (inc : WireMember) : MemberState :=
  { addr := inc.addr, heartbeatAt := now, incarnation := inc.incarnation, status := .alive }

/-- The loop body of `merge`, behind the pointer. -/
def receiveMember (now : Time) (g : GossipNode) (inc : WireMember) : GossipNode :=
  if inc.addr = g.self then
    if inc.status ≠ statusAlive ∧ g.incarnation ≤ inc.incarnation then
      { g with incarnation := inc.incarnation + 1 }
    else g
  else
    match g.members.lookup inc.addr with
    | none => { g with members := g.members.insert inc.addr (meet now inc) }
    | some cur => { g with members := g.members.insert inc.addr (hear now cur inc) }

/-- The loop body of `merge`: `in.Addr` comes first. -/
def receiveOne (now : Time) (g : GossipNode) (inc : Option WireMember) : Option GossipNode :=
  inc.map (receiveMember now g)

/-- `merge`, on what was decoded. -/
def receive (g : GossipNode) (now : Time) (incoming : Incoming) : Option GossipNode :=
  incoming.foldlM (receiveOne now) g

/-- One datagram of `recvLoop`: what does not decode is skipped. -/
def recv (unmarshal : Bytes → Option Incoming) (g : GossipNode) (now : Time) (payload : Bytes) :
    Option GossipNode :=
  match unmarshal payload with
  | none => some g
  | some incoming => g.receive now incoming

end GossipNode

end Gossip

end TftAnalytics

import TftAnalytics.Peers.Model.Member
/-!
# Peers — what a node's run shows of its members

Beside the states of a run, what can be seen of it: the calls of `onDead`,
and the changes of a member's status, by ticks and by merges. A change is
read off the two views before and after an event.
-/

namespace TftAnalytics

namespace Peers

open Gossip

/-- What changed a status. -/
inductive Cause where
  | tick
  | merge
  deriving DecidableEq

/-- A call of `onDead`, or a change of status, and the reading of the clock. -/
inductive TraceEntry where
  | called (addr : GoString) (now : Time)
  | changed (addr : GoString) (before after : Status) (cause : Cause) (now : Time)
  deriving DecidableEq

/-- The member it is about. -/
def TraceEntry.addr : TraceEntry → GoString
  | .called addr _ | .changed addr _ _ _ _ => addr

/-- The reading of the clock. -/
def TraceEntry.now : TraceEntry → Time
  | .called _ now | .changed _ _ _ _ now => now

/-- The member that is passed to `onDead`. -/
def TraceEntry.call? : TraceEntry → Option GoString
  | .called addr _ => some addr
  | .changed _ _ _ _ _ => none

/-- The member that goes into `dead`. -/
def TraceEntry.death? : TraceEntry → Option GoString
  | .changed addr _ .dead _ _ => some addr
  | _ => none

/-- The calls of `onDead` in a trace, and the transitions into `dead`. -/
def calls (τ : List TraceEntry) : List GoString := τ.filterMap TraceEntry.call?

@[inherit_doc calls]
def transitions (τ : List TraceEntry) : List GoString := τ.filterMap TraceEntry.death?

/-- How a member's status differs between two views. -/
def changeOf (cause : Cause) (now : Time) (before after : GossipNode) (addr : GoString) :
    Option TraceEntry :=
  match before.members.lookup addr, after.members.lookup addr with
  | some m, some m' =>
    if m.status = m'.status then none else some (.changed addr m.status m'.status cause now)
  | _, _ => none

/-- The members whose status differs. -/
def changes (cause : Cause) (now : Time) (before after : GossipNode) : List TraceEntry :=
  before.members.keys.filterMap (changeOf cause now before after)

namespace Member

variable {σ Op : Type}

/-- What one event shows. -/
def entries (H : Host σ Op) (m : Member σ) : MemberEvent Op → List TraceEntry
  | .tick dead => changes .tick m.clock m.gossip (m.step H (.tick dead)).gossip
  | .merge incoming => changes .merge m.clock m.gossip (m.step H (.merge incoming)).gossip
  | .callback =>
    match m.pending with
    | [] => []
    | addr :: _ => [.called addr m.clock]
  | .advance _ | .serve _ => []

/-- What a run shows. -/
def trace (H : Host σ Op) (m : Member σ) : List (MemberEvent Op) → List TraceEntry
  | [] => []
  | ev :: evs => m.entries H ev ++ (m.step H ev).trace H evs

end Member

end Peers

end TftAnalytics

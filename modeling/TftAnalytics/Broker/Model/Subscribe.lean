import TftAnalytics.Broker.Model.Partition
/-!
# Broker — a subscription

The loop of `Subscribe` on one partition, one lock acquisition a step: the
base of the retained window, the next offset, and `ReadAt` are looked at
in turn, and appends, which trim, come between any two of them. The token
bucket only delays. What has been sent is kept, with the base the
partition had at that moment.
-/

namespace TftAnalytics

namespace Broker

/-- Where the loop of `Subscribe` is: before the look at `BaseOffset`,
before the one at `NextOffset`, waiting for an append, before `ReadAt`,
before `Send` with the payload read, or returned. -/
inductive Pc where
  | base
  | next
  | wait
  | read
  | send (payload : Bytes)
  | done
  deriving DecidableEq

/-- A message sent, and the base of the partition when it was. -/
structure Sent where
  offset : ℤ
  payload : Bytes
  baseOffset : ℤ
  deriving DecidableEq

/-- A partition with a subscription to it. -/
structure Subscription where
  partition : Partition
  offset : ℤ
  pc : Pc
  sent : List Sent

/-- What happens: an append to the partition, a step of the loop, or the
end of the consumer's stream. -/
inductive StreamEvent where
  | append (payload : Bytes)
  | advance
  | close
  deriving DecidableEq

namespace Subscription

/-- `Subscribe` from an offset; a negative one is taken as zero. -/
def start (p : Partition) (offset : ℤ) : Subscription :=
  { partition := p, offset := if offset < 0 then 0 else offset, pc := .base, sent := [] }

/-- The next step of the loop. -/
def advance (s : Subscription) : Subscription :=
  match s.pc with
  | .base =>
    { s with
      offset := if s.offset < s.partition.baseOffset then s.partition.baseOffset else s.offset
      pc := .next }
  | .next => { s with pc := if s.offset ≥ s.partition.nextOffset then .wait else .read }
  | .wait => { s with pc := .base }
  | .read =>
    match s.partition.readAt s.offset with
    | none => { s with pc := .base }
    | some payload => { s with pc := .send payload }
  | .send payload =>
    { s with
      sent := s.sent ++ [⟨s.offset, payload, s.partition.baseOffset⟩]
      offset := s.offset + 1
      pc := .base }
  | .done => s

/-- One event. -/
def step (s : Subscription) : StreamEvent → Subscription
  | .append payload => { s with partition := (s.partition.append payload).1 }
  | .advance => s.advance
  | .close => { s with pc := .done }

/-- A run. -/
def run (s : Subscription) (evs : List StreamEvent) : Subscription := evs.foldl step s

end Subscription

/-- The payloads appended in a run of events, in order. -/
def appendedBy (evs : List StreamEvent) : List Bytes :=
  evs.filterMap fun
    | .append payload => some payload
    | _ => none

end Broker

end TftAnalytics

import TftAnalytics.Broker.Model.Broker
/-!
# Broker — replica assignment, lock by lock

`getPartition` and `onPeerDead` of `broker.go`, cut where they take or give
up a lock. `b.mu` is held by one `getPartition` for writing or by
`onPeerDead` for reading, while it takes its snapshot; the ring and the
replicas of a partition are read and written under locks of their own, in
one step each. The callbacks of deaths run one after another.
-/

namespace TftAnalytics

open Hasher

namespace Broker

/-- A `getPartition` that holds `b.mu`: its key, and the targets once
`replicaTargets` has given them. -/
structure Writer where
  key : GoString
  targets : Option (List GoString)
  deriving DecidableEq

/-- Where `onPeerDead` is: not running, with the peer off the ring, with
`b.mu` held for its snapshot, or in its loop, at the first of the keys that
remain. -/
inductive Callback where
  | idle
  | removed (addr : GoString)
  | reading (addr : GoString)
  | updating (addr : GoString) (remaining : List GoString) (newTargets : Option (List GoString))
  deriving DecidableEq

/-- A broker, the holder of `b.mu` for writing, the callback, and the peers
whose callbacks have returned. -/
structure Assignment where
  broker : Broker
  writer : Option Writer
  callback : Callback
  completed : List GoString

/-- What happens: a `getPartition` takes `b.mu`, gives it up without a new
partition, computes the targets, stores the partition and gives it up; a
callback starts and takes the peer off the ring, takes `b.mu`, copies the
partitions in any order and gives it up, computes the targets of the next
one, assigns them, and returns. -/
inductive AssignmentEvent where
  | lock (key : GoString)
  | leave
  | compute
  | store
  | die (addr : GoString)
  | rlock
  | snapshot (order : List GoString)
  | retarget
  | assign
  | finish

namespace Assignment

/-- `NewBroker`. -/
def start (self : GoString) (peers : List GoString) : Assignment :=
  { broker := newBroker self peers, writer := none, callback := .idle, completed := [] }

/-- One event. One that cannot happen now does nothing. -/
def step (σ : Assignment) : AssignmentEvent → Assignment
  | .lock key =>
    match σ.writer, σ.callback with
    | some _, _ => σ
    | none, .reading _ => σ
    | none, _ => { σ with writer := some ⟨key, none⟩ }
  | .leave =>
    match σ.writer with
    | some ⟨_, none⟩ => { σ with writer := none }
    | _ => σ
  | .compute =>
    match σ.writer with
    | some ⟨key, none⟩ =>
      -- the double check under the lock
      if key ∈ σ.broker.partitions then σ
      else { σ with writer := some ⟨key, some (σ.broker.replicaTargets key)⟩ }
    | _ => σ
  | .store =>
    match σ.writer with
    | some ⟨key, some targets⟩ =>
      { σ with
        broker := { σ.broker with partitions := σ.broker.partitions.insert key targets }
        writer := none }
    | _ => σ
  | .die addr =>
    match σ.callback with
    | .idle =>
      { σ with
        broker := { σ.broker with ring := σ.broker.ring.removeNode addr }
        callback := .removed addr }
    | _ => σ
  | .rlock =>
    match σ.writer, σ.callback with
    | none, .removed addr => { σ with callback := .reading addr }
    | _, _ => σ
  | .snapshot order =>
    match σ.callback with
    | .reading addr =>
      if order.Perm σ.broker.partitions.keys then
        { σ with callback := .updating addr order none }
      else σ
    | _ => σ
  | .retarget =>
    match σ.callback with
    | .updating addr (key :: remaining) none =>
      { σ with
        callback := .updating addr (key :: remaining) (some (σ.broker.replicaTargets key)) }
    | _ => σ
  | .assign =>
    match σ.callback with
    | .updating addr (key :: remaining) (some newTargets) =>
      { σ with
        broker := { σ.broker with partitions := σ.broker.partitions.insert key newTargets }
        callback := .updating addr remaining none }
    | _ => σ
  | .finish =>
    match σ.callback with
    | .updating addr [] _ => { σ with callback := .idle, completed := σ.completed ++ [addr] }
    | _ => σ

/-- A run. -/
def run (self : GoString) (peers : List GoString) (evs : List AssignmentEvent) : Assignment :=
  evs.foldl step (start self peers)

end Assignment

end Broker

end TftAnalytics

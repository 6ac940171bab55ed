import TftAnalytics.Broker.Model.Partition
import Mathlib.Logic.Function.Basic
/-!
# Broker — asynchronous replication of a partition

`Publish` at the broker that the clients of a partition use, and at the
replicas. A publish is appended and acknowledged, and for each replica a
goroutine forwards the request; it carries the payload and no offset, and
arrives in any order with the others, or not at all. A replica appends
what arrives.
-/

namespace TftAnalytics

namespace Broker

/-- The replicas of a partition, and the retention caps at the brokers. -/
structure Placement where
  replicas : List GoString
  nodup : replicas.Nodup
  sourceRecords : ℤ
  replicaRecords : GoString → ℤ

/-- A `replicate` goroutine: the replica, the payload it forwards, and
which publish it stands for. -/
structure Task where
  target : GoString
  payload : Bytes
  publish : ℕ
  deriving DecidableEq

/-- The logs of a partition, the goroutines under way, and what was
published and has arrived. -/
structure Replication where
  source : Partition
  replica : GoString → Partition
  inFlight : List Task
  published : List Bytes
  arrived : GoString → List ℕ

/-- What happens: a publish, and a replication that arrives or is lost. -/
inductive ReplicationEvent where
  | publish (payload : Bytes)
  | arrive (task : Task)
  | lose (task : Task)

namespace Replication

/-- New partitions. -/
def init (place : Placement) : Replication :=
  { source := openPartition [] place.sourceRecords
    replica := fun r => openPartition [] (place.replicaRecords r)
    inFlight := []
    published := []
    arrived := fun _ => [] }

/-- One event. A goroutine that is not under way does nothing. -/
def step (place : Placement) (σ : Replication) : ReplicationEvent → Replication
  | .publish payload =>
    { σ with
      source := (σ.source.append payload).1
      inFlight := σ.inFlight
        ++ place.replicas.map fun target => ⟨target, payload, σ.published.length⟩
      published := σ.published ++ [payload] }
  | .arrive task =>
    if task ∈ σ.inFlight then
      { σ with
        replica := Function.update σ.replica task.target
          ((σ.replica task.target).append task.payload).1
        inFlight := σ.inFlight.erase task
        arrived := Function.update σ.arrived task.target
          (σ.arrived task.target ++ [task.publish]) }
    else σ
  | .lose task => { σ with inFlight := σ.inFlight.erase task }

/-- A run. -/
def run (place : Placement) (evs : List ReplicationEvent) : Replication :=
  evs.foldl (step place) (init place)

end Replication

/-- The payloads that clients publish in a run, in order. -/
def publishedBy (evs : List ReplicationEvent) : List Bytes :=
  evs.filterMap fun
    | .publish payload => some payload
    | _ => none

end Broker

end TftAnalytics

import TftAnalytics.Peers.Model.Member
/-!
# Broker — replica placement

The part of `broker.go` that places replicas: the ring, the replicas of
each partition the broker has opened, and what the death of a peer does to
them. Of a partition only its replicas are kept.
-/

namespace TftAnalytics

open Hasher Peers

/-- `replicationFactor`. -/
def Broker.replicationFactor : ℕ := 2

/-- `Broker`: `partitions` has the replica targets of each partition. -/
structure Broker where
  self : GoString
  ring : HashRing
  partitions : AList fun _ : GoString => List GoString

/-- `NewBroker`. -/
def Broker.newBroker (self : GoString) (peers : List GoString) : Broker :=
  { self := self, ring := newRing peers, partitions := ∅ }

/-- `replicaTargets`: the first owners that are not the broker itself. -/
def Broker.replicaTargets (b : Broker) (key : GoString) : List GoString :=
  ((b.ring.getNodes crc32 key (replicationFactor + 1)).filter fun o => o ≠ b.self).take
    (replicationFactor - 1)

/-- `getPartition`: a partition opened for the first time gets its
targets. -/
def Broker.getPartition (key : GoString) (b : Broker) : Broker :=
  if key ∈ b.partitions then b
  else { b with partitions := b.partitions.insert key (b.replicaTargets key) }

/-- `onPeerDead`: the peer leaves the ring, and every partition gets the
targets of the ring that is left. -/
def Broker.onPeerDead (addr : GoString) (b : Broker) : Broker :=
  let b := { b with ring := b.ring.removeNode addr }
  let retarget := fun (m : AList fun _ : GoString => List GoString) key =>
    m.insert key (b.replicaTargets key)
  { b with partitions := b.partitions.keys.foldl retarget b.partitions }

/-- A broker as a component: beside deaths it opens partitions. -/
def Broker.host : Host Broker GoString where
  ring := Broker.ring
  onPeerDead := Broker.onPeerDead
  serve := Broker.getPartition
  ring_onPeerDead := fun _ _ => rfl
  ring_serve := by
    intro key b
    unfold Broker.getPartition
    split_ifs <;> rfl

end TftAnalytics

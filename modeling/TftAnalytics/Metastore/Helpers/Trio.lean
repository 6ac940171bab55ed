import TftAnalytics.Metastore.Helpers.Rings
import Mathlib.Data.List.Permutation
/-!
# Metastore — three nodes

Helper layer. On a ring that contains three nodes every key is owned by
all of them, in an order that depends on the hashes. A configuration of
three keeps such rings as long as there is nothing but calls, so what a
write leads to there is checked for each of the six orders.
-/

namespace TftAnalytics

namespace Metastore

open Hasher Peers

variable {env : Env} {maxMemBytes : ℤ} {c : Cluster} {n : GoString} {nd : Node}

/-- **The rings all contain the nodes of `U`**: on the ring of every node
that is up these are the nodes, and each of them owns a slot. -/
def Cluster.RingsFull (c : Cluster) (U : Finset GoString) : Prop :=
  ∀ n, ∀ nd ∈ c.running n, nd.member.host.ring.nodes = U ∧ ∀ x ∈ U, nd.member.host.ring.Owns x

/-- The owners in a full ring of three. -/
theorem owners_full {U : Finset GoString} (hU : U.card = 3) (hplaced : nd.Placed env maxMemBytes n)
    (hring : nd.member.host.ring.nodes = U ∧ ∀ x ∈ U, nd.member.host.ring.Owns x)
    (key : GoString) : (nd.owners key).Perm U.toList := by
  have hwf : nd.member.host.ring.Wf := hplaced.rooted.wf
  refine hwf.getNodes_perm (fun x hx => hring.2 x (hring.1 ▸ hx)) ?_ U.nodup_toList ?_
  · rw [hring.1, hU]
    decide
  · rw [hring.1, Finset.toList_toFinset]

/-! ## A configuration -/

/-- No other node of the three hashes to a node's first slot. -/
theorem trio_slots : ∀ a ∈ Gossip.trio.keys, ∀ p ∈ Gossip.trio.keys, p ≠ a →
    ∀ j < DefaultVirtualNodes,
      HashRing.slotHash crc32 p j ≠ HashRing.slotHash crc32 a 0 := by decide +kernel

/-- Their rings contain the three as long as there is nothing but calls. -/
theorem trio_ringsFull {evs : List Event} (hevs : ∀ ev ∈ evs, ev.IsCall) :
    (Cluster.after env maxMemBytes Gossip.trio evs).RingsFull Gossip.trio.keys.toFinset := by
  intro n nd hnd
  obtain ⟨peersEnv, hpeers, hring⟩ := Cluster.ring_of_isCall hevs (Cluster.mem_running.mp hnd).1
  have hmain : ∀ s ∈ Gossip.trio.entries, (mainPeers s.1 s.2).Perm Gossip.trio.keys := by decide
  have hperm := hmain ⟨n, peersEnv⟩ (AList.mem_lookup_iff.mp hpeers)
  rw [hring]
  refine ⟨?_, fun x hx => ?_⟩
  · rw [newRing_nodes]
    exact List.toFinset_eq_of_perm _ _ hperm
  · have hx' := List.mem_toFinset.mp hx
    refine (newRing_wf _).owns
      (HashRing.lookup_foldl_addNode_self (hperm.mem_iff.mpr hx') ?_ 0 ?_ ?_ ?_)
    · exact Finset.notMem_empty x
    · decide
    · exact AList.notMem_empty _
    · exact fun p hp hne j hj => trio_slots x hx' p (hperm.mem_iff.mp hp) hne j hj

/-- The first event of a run is a step. -/
theorem Cluster.run_cons (ev : Event) (evs : List Event) :
    c.run env maxMemBytes (ev :: evs) = (c.step env maxMemBytes ev).run env maxMemBytes evs := rfl

theorem Cluster.step_startWrite (env : Env) (maxMemBytes : ℤ) (e : StatEntry)
    (hnd : nd ∈ c.running n) :
    c.step env maxMemBytes (.startWrite n e) = { c with
      writes := c.writes ++ [WriteCall.start n nd.boots e (nd.owners e.entityId)] } := by
  simp only [Cluster.step, Cluster.stepWrites, Option.mem_def.mp hnd, Option.map_some,
    Option.toList_some]
  rfl

/-- The first node writes an entry to itself and to the second. -/
def pairWrite : List Event :=
  [.writeLook 0 (.done .ok), .writeLook 0 (.done .ok), .writeLook 0 (.done .ok),
    .writeServe 0 [98] (.done .ok), .writeReport 0 [98] true]

/-- The write, called. -/
def pairEvents : List Event := .startWrite [97] (sampleEntry 97 1) :: pairWrite

/-- The three with the write called, its owners in the order `l`. -/
def trioWriting (l : List GoString) : Cluster :=
  { Cluster.init sampleEnv 0 Gossip.trio with
    writes := [WriteCall.start [97] 0 (sampleEntry 97 1) l] }

/-- The owners of a key at any of the three. -/
theorem trio_owners {evs : List Event} (hevs : ∀ ev ∈ evs, ev.IsCall)
    (hnd : nd ∈ (Cluster.after sampleEnv 0 Gossip.trio evs).running n) (key : GoString) :
    nd.owners key ∈ Gossip.trio.keys.permutations' := by
  have hcard : Gossip.trio.keys.toFinset.card = 3 := by decide
  have hplaced := Cluster.placed_run Gossip.trio evs (Cluster.mem_running.mp hnd).1
  have hperm := owners_full hcard hplaced (trio_ringsFull hevs n nd hnd) key
  exact List.mem_permutations'.mpr (hperm.trans (List.toFinset_toList Gossip.trio.keys_nodup))

/-- **The write is called**, whatever the order in which the ring lists the
owners. -/
theorem trio_startWrite : ∃ l ∈ Gossip.trio.keys.permutations',
    (Cluster.init sampleEnv 0 Gossip.trio).step sampleEnv 0
      (.startWrite [97] (sampleEntry 97 1)) = trioWriting l := by
  obtain ⟨nd, hnd, hboots⟩ : ∃ nd, nd ∈ (Cluster.after sampleEnv 0 Gossip.trio []).running [97] ∧
      nd.boots = 0 := ⟨_, rfl, rfl⟩
  refine ⟨nd.owners [97], trio_owners (by simp) hnd [97], ?_⟩
  have hstart := Cluster.step_startWrite sampleEnv 0 (sampleEntry 97 1) hnd
  rw [hboots] at hstart
  exact hstart

/-- What it leads to. -/
theorem trio_pairEvents : ∃ l ∈ Gossip.trio.keys.permutations',
    (Cluster.init sampleEnv 0 Gossip.trio).step sampleEnv 0
        (.startWrite [97] (sampleEntry 97 1)) = trioWriting l ∧
      Cluster.after sampleEnv 0 Gossip.trio pairEvents
        = (trioWriting l).run sampleEnv 0 pairWrite := by
  obtain ⟨l, hl, hwrite⟩ := trio_startWrite
  refine ⟨l, hl, hwrite, ?_⟩
  rw [Cluster.after, pairEvents, Cluster.run_cons, hwrite]

end Metastore

end TftAnalytics

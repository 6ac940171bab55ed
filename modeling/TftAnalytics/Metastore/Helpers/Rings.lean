import TftAnalytics.Metastore.Helpers.Cluster
import TftAnalytics.Peers.Ring
import Mathlib.Data.List.Induction
/-!
# Metastore — the rings of a cluster

Helper layer. Every node's ring is that of its configuration without the
peers it has declared dead since it was started, and the node itself is
always on it.
-/

namespace TftAnalytics

namespace Metastore

open Hasher Peers

variable {env : Env} {maxMemBytes : ℤ} {c : Cluster} {n : GoString} {nd : Node}

theorem Cluster.after_append (config : AList fun _ : GoString => List GoString)
    (evs evs' : List Event) : Cluster.after env maxMemBytes config (evs ++ evs')
      = (Cluster.after env maxMemBytes config evs).run env maxMemBytes evs' := List.foldl_append

theorem Cluster.after_concat (config : AList fun _ : GoString => List GoString)
    (evs : List Event) (ev : Event) : Cluster.after env maxMemBytes config (evs ++ [ev])
      = (Cluster.after env maxMemBytes config evs).step env maxMemBytes ev :=
  Cluster.after_append config evs [ev]

/-- **What holds of a node's ring.** -/
structure Node.Placed (env : Env) (maxMemBytes : ℤ) (n : GoString) (nd : Node) : Prop where
  self : nd.member.gossip.self = n
  host : nd.member.host.self = n
  wired : nd.member.Wired (serverHost env maxMemBytes) (mainPeers n nd.peersEnv).toFinset
  rooted : nd.member.Rooted (serverHost env maxMemBytes)

theorem ring_newServer (self : GoString) (lsm : History) (peers : List GoString) :
    (serverHost env maxMemBytes).ring (newServer self lsm peers) = newRing peers := rfl

theorem Node.ring_boot (n : GoString) (peersEnv : List GoString) (lsm : History) (boots : ℕ) :
    (Node.boot n peersEnv lsm boots).member.host.ring = newRing (mainPeers n peersEnv) := by
  simp only [Node.boot, Member.start, newServer]

theorem Node.placed_boot (n : GoString) (peersEnv : List GoString) (lsm : History) (boots : ℕ) :
    (Node.boot n peersEnv lsm boots).Placed env maxMemBytes n where
  self := rfl
  host := rfl
  wired := by
    refine Member.wired_start ?_
    rw [ring_newServer, newRing_nodes]
    rfl
  rooted := Member.rooted_start (ring_newServer n lsm _)

theorem Node.Placed.step (h : nd.Placed env maxMemBytes n) (d : Node.Deed) :
    (nd.step env maxMemBytes d).Placed env maxMemBytes n := by
  cases d with
  | restart =>
    unfold Node.step
    split_ifs
    · exact h
    · rw [h.host]
      exact Node.placed_boot n _ _ _
  | member ev =>
    unfold Node.step
    split_ifs
    · have hgossip := Member.step_gossip_self (serverHost env maxMemBytes) nd.member ev
      have hhost : (nd.member.step (serverHost env maxMemBytes) ev).host.self = n := by
        rcases (Member.moves_step (serverHost env maxMemBytes) nd.member ev).host_cases with
          heq | ⟨addr, heq⟩ | ⟨op, -, heq⟩ <;> rw [heq] <;> exact h.host
      exact ⟨hgossip.trans h.self, hhost, h.wired.step ev, h.rooted.step h.wired ev⟩
    · exact h

/-- **Every node of every run is placed.** -/
theorem Cluster.placed_run (config : AList fun _ : GoString => List GoString) (evs : List Event)
    (hnd : nd ∈ (Cluster.after env maxMemBytes config evs).nodes n) :
    nd.Placed env maxMemBytes n := by
  induction evs using List.reverseRecOn generalizing nd with
  | nil =>
    obtain ⟨peersEnv, -, rfl⟩ := Option.map_eq_some_iff.mp hnd
    exact Node.placed_boot n peersEnv _ 0
  | append_singleton evs ev ih =>
    rw [Cluster.after_concat] at hnd
    rcases Cluster.nodes_step _ ev n with heq | ⟨d, -, heq⟩ <;> rw [heq] at hnd
    · exact ih hnd
    · obtain ⟨nd₀, hnd₀, rfl⟩ := Option.map_eq_some_iff.mp hnd
      exact (ih hnd₀).step d

/-! ## Runs that leave the rings alone -/

/-- The event belongs to a call. -/
def Event.IsCall : Event → Prop
  | .member _ _ => False
  | .restart _ => False
  | _ => True

instance : DecidablePred Event.IsCall
  | .member _ _ => isFalse id
  | .restart _ => isFalse id
  | .startWrite _ _ => isTrue trivial
  | .writeLook _ _ => isTrue trivial
  | .writeServe _ _ _ => isTrue trivial
  | .writeReport _ _ _ => isTrue trivial
  | .startRead _ _ => isTrue trivial
  | .readLook _ => isTrue trivial
  | .readServe _ => isTrue trivial
  | .readReport _ _ => isTrue trivial

/-- A call has a tree do something, and nothing else. -/
theorem Cluster.deed_of_isCall {ev : Event} (hev : ev.IsCall) {d : Node.Deed}
    (hdeed : c.deed ev = some (n, d)) : ∃ a, d = .member (.serve a) := by
  cases ev with
  | member x mev => cases hev
  | restart x => cases hev
  | writeLook k fate =>
    obtain ⟨w, -, h⟩ := Option.bind_eq_some_iff.mp hdeed
    obtain ⟨nd, -, h⟩ := Option.bind_eq_some_iff.mp h
    obtain ⟨x, -, h⟩ := Option.map_eq_some_iff.mp h
    exact ⟨_, (Prod.mk.inj h).2.symm⟩
  | writeServe k owner fate =>
    obtain ⟨w, -, h⟩ := Option.bind_eq_some_iff.mp hdeed
    split_ifs at h
    exact ⟨_, (Prod.mk.inj (Option.some.inj h)).2.symm⟩
  | readLook k =>
    obtain ⟨r, -, h⟩ := Option.bind_eq_some_iff.mp hdeed
    obtain ⟨nd, -, h⟩ := Option.bind_eq_some_iff.mp h
    obtain ⟨x, -, h⟩ := Option.map_eq_some_iff.mp h
    exact ⟨_, (Prod.mk.inj h).2.symm⟩
  | readServe k =>
    obtain ⟨r, -, h⟩ := Option.bind_eq_some_iff.mp hdeed
    obtain ⟨x, -, h⟩ := Option.map_eq_some_iff.mp h
    exact ⟨_, (Prod.mk.inj h).2.symm⟩
  | _ => cases hdeed

/-- **Calls leave the rings as they were configured.** -/
theorem Cluster.ring_of_isCall {config : AList fun _ : GoString => List GoString}
    {evs : List Event} (hevs : ∀ ev ∈ evs, ev.IsCall)
    (hnd : nd ∈ (Cluster.after env maxMemBytes config evs).nodes n) :
    ∃ peersEnv ∈ config.lookup n, nd.member.host.ring = newRing (mainPeers n peersEnv) := by
  induction evs using List.reverseRecOn generalizing nd with
  | nil =>
    obtain ⟨peersEnv, hpeers, rfl⟩ := Option.map_eq_some_iff.mp hnd
    exact ⟨peersEnv, hpeers, Node.ring_boot n peersEnv _ 0⟩
  | append_singleton evs ev ih =>
    rw [Cluster.after_concat] at hnd
    have hevs' : ∀ ev ∈ evs, ev.IsCall := fun ev hev => hevs ev (List.mem_append_left _ hev)
    rcases Cluster.nodes_step _ ev n with heq | ⟨d, hdeed, heq⟩ <;> rw [heq] at hnd
    · exact ih hevs' hnd
    · obtain ⟨nd₀, hnd₀, rfl⟩ := Option.map_eq_some_iff.mp hnd
      obtain ⟨a, rfl⟩ := Cluster.deed_of_isCall (hevs ev (by simp)) hdeed
      obtain ⟨peersEnv, hpeers, hring⟩ := ih hevs' hnd₀
      refine ⟨peersEnv, hpeers, ?_⟩
      rw [← hring, Node.step]
      split_ifs <;> rfl

/-- **A node that has declared all its peers dead owns everything itself.** -/
theorem Node.Placed.owners_alone (h : nd.Placed env maxMemBytes n)
    (hpending : nd.member.pending = [])
    (hdeaths : ∀ p ∈ mainPeers n nd.peersEnv, p ≠ n → p ∈ nd.member.deaths) (key : GoString) :
    nd.owners key = [n] := by
  have hfollows := h.wired.follows hpending
  -- all others are off the ring, the node itself never is
  have hnodes : nd.member.host.ring.nodes = {n} := by
    refine hfollows.nodes.trans ?_
    ext p
    rw [Finset.mem_sdiff, List.mem_toFinset, List.mem_toFinset, Finset.mem_singleton]
    constructor
    · rintro ⟨hp, hdead⟩
      by_contra hne
      exact hdead (hdeaths p hp hne)
    · rintro rfl
      exact ⟨by simp [mainPeers], h.self ▸ hfollows.self⟩
  have howns : nd.member.host.ring.Owns n := by
    have hown := h.rooted.own
    rw [h.self] at hown
    exact h.rooted.wf.owns hown
  refine List.perm_singleton.mp (h.rooted.wf.getNodes_perm ?_ ?_ (List.nodup_singleton n) ?_)
  · intro x hx
    change x ∈ nd.member.host.ring.nodes at hx
    rw [hnodes, Finset.mem_singleton] at hx
    exact hx ▸ howns
  · change (nd.member.host.ring.nodes.card : ℤ) ≤ replicaFactor
    rw [hnodes, Finset.card_singleton]
    decide
  · change nd.member.host.ring.nodes = _
    rw [hnodes]
    rfl

end Metastore

end TftAnalytics

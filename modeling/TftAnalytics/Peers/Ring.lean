import TftAnalytics.Broker.Model.Broker
import TftAnalytics.Metastore.Model.Server
import TftAnalytics.Peers.Helpers.Moves
import TftAnalytics.Hasher.Helpers.Owners
/-!
# Peers — the ring against the failure detector

The death of a peer takes it off the ring, and nothing puts it back: a
peer that refutes its death is alive in the view and owns nothing. The
ring is the configuration without all that was ever declared dead.
-/

namespace TftAnalytics

namespace Peers

open Gossip Hasher

variable {σ Op : Type} {H : Host σ Op} {m : Member σ}

theorem newRing_nodes (peers : List GoString) : (newRing peers).nodes = peers.toFinset := by
  rw [newRing, HashRing.foldl_addNode_nodes]
  exact Finset.empty_union _

/-- **What ties ring and view together**: the ring lacks what the callbacks
made so far took off, each death logged had its callback or will, and only
deaths that were logged are in the view. -/
structure Member.Wired (H : Host σ Op) (conf : Finset GoString) (m : Member σ) : Prop where
  ring : ∃ done : Finset GoString, (H.ring m.host).nodes = conf \ done ∧
    m.deaths.toFinset = done ∪ m.pending.toFinset
  logged : ∀ addr, m.HoldsDead addr → addr ∈ m.deaths
  self : m.gossip.self ∉ m.deaths

theorem Member.wired_start {self : GoString} {peersEnv : List GoString} {host : σ}
    (hhost : (H.ring host).nodes = (mainPeers self peersEnv).toFinset) :
    (Member.start self peersEnv host).Wired H (mainPeers self peersEnv).toFinset where
  ring := ⟨∅, hhost.trans Finset.sdiff_empty.symm, rfl⟩
  logged := by
    rintro addr ⟨s, hs, hdead⟩
    rw [new_alive hs] at hdead
    cases hdead
  self := by simp [Member.start]

/-- **One event at a node.** -/
theorem Member.Wired.moves {conf : Finset GoString} (h : m.Wired H conf) {ev : MemberEvent Op}
    {m' : Member σ} {es : List TraceEntry} (hmoves : m.Moves H ev m' es) : m'.Wired H conf := by
  cases hmoves with
  | idle => exact h
  | advance d => exact ⟨h.ring, h.logged, h.self⟩
  | tick dead hpending hperm =>
    refine ⟨?_, ?_, ?_⟩
    · obtain ⟨done, hring, hdeaths⟩ := h.ring
      refine ⟨done, hring, ?_⟩
      rw [List.toFinset_append, hdeaths, hpending]
      simp
    · -- what a tick leaves dead was dead, or is declared so
      rintro addr ⟨s, hs, hdead⟩
      rw [tick_lookup] at hs
      obtain ⟨m₀, hm₀, rfl⟩ := Option.map_eq_some_iff.mp hs
      by_cases hself : addr = m.gossip.self
      · rw [GossipNode.tickMember, if_pos hself] at hdead
        exact List.mem_append_left _ (h.logged addr ⟨m₀, hm₀, hdead⟩)
      · rw [GossipNode.tickMember, if_neg hself, ageMember_dead] at hdead
        by_cases hold : m₀.status = .dead
        · exact List.mem_append_left _ (h.logged addr ⟨m₀, hm₀, hold⟩)
        · refine List.mem_append_right _ (hperm.mem_iff.mpr ?_)
          exact mem_newlyDead.mpr ⟨hself, m₀, hm₀, hdead.resolve_left hold, hold⟩
    · rw [List.mem_append, not_or]
      exact ⟨h.self, fun hmem => (mem_newlyDead.mp (hperm.mem_iff.mp hmem)).1 rfl⟩
  | callback addr rest hpending =>
    obtain ⟨done, hring, hdeaths⟩ := h.ring
    refine ⟨⟨insert addr done, ?_, ?_⟩, h.logged, h.self⟩
    · simp only [H.ring_onPeerDead, HashRing.removeNode_nodes, hring]
      rw [Finset.sdiff_insert]
    · simp only [hdeaths, hpending, List.toFinset_cons, Finset.union_insert, Finset.insert_union]
  | merge incoming =>
    refine ⟨h.ring, ?_, by rw [merge_self]; exact h.self⟩
    rintro addr ⟨s, hs, hdead⟩
    exact h.logged addr (merge_dead hs hdead)
  | serve op =>
    obtain ⟨done, hring, hdeaths⟩ := h.ring
    refine ⟨⟨done, ?_, hdeaths⟩, h.logged, h.self⟩
    simp only [H.ring_serve, hring]

theorem Member.Wired.step {conf : Finset GoString} (h : m.Wired H conf) (ev : MemberEvent Op) :
    (m.step H ev).Wired H conf := h.moves (moves_step H m ev)

theorem Member.Wired.run {conf : Finset GoString} (h : m.Wired H conf)
    (evs : List (MemberEvent Op)) : (m.run H evs).Wired H conf := by
  unfold Member.run
  induction evs generalizing m with
  | nil => exact h
  | cons ev evs ih => exact ih (h.step ev)

/-! ## The slots of the node itself -/

theorem newRing_wf (peers : List GoString) : (newRing peers).Wf :=
  (HashRing.wf_new _).foldl_addNode peers

/-- The first peer gets its first slot. -/
theorem newRing_lookup (self : GoString) (peers : List GoString) :
    (newRing (self :: peers)).nodeMap.lookup (HashRing.slotHash crc32 self 0) = some self := by
  rw [newRing, List.foldl_cons]
  refine HashRing.lookup_foldl_addNode peers (HashRing.lookup_addNode_self ?_ ?_ ?_)
  · exact Finset.notMem_empty self
  · decide
  · exact AList.notMem_empty _

/-- **The ring is in order, and the node itself is on it.** -/
structure Member.Rooted (H : Host σ Op) (m : Member σ) : Prop where
  wf : (H.ring m.host).Wf
  own : (H.ring m.host).nodeMap.lookup (HashRing.slotHash crc32 m.gossip.self 0)
    = some m.gossip.self

theorem Member.rooted_start {self : GoString} {peersEnv : List GoString} {host : σ}
    (hhost : H.ring host = newRing (mainPeers self peersEnv)) :
    (Member.start self peersEnv host).Rooted H where
  wf := by
    rw [Member.start, hhost]
    exact newRing_wf _
  own := by
    simp only [Member.start, hhost]
    exact newRing_lookup self _

/-- What a node does never takes the node itself off its ring. -/
theorem Member.Rooted.moves {conf : Finset GoString} (h : m.Rooted H) (hwired : m.Wired H conf)
    {ev : MemberEvent Op} {m' : Member σ} {es : List TraceEntry}
    (hmoves : m.Moves H ev m' es) : m'.Rooted H := by
  cases hmoves with
  | idle => exact h
  | advance d => exact ⟨h.wf, h.own⟩
  | tick => exact ⟨h.wf, h.own⟩
  | callback addr rest hpending =>
    -- a node never declares itself dead
    have hne : m.gossip.self ≠ addr := by
      rintro rfl
      obtain ⟨done, -, hdeaths⟩ := hwired.ring
      refine hwired.self (List.mem_toFinset.mp ?_)
      rw [hdeaths, hpending]
      simp
    refine ⟨?_, ?_⟩
    · rw [H.ring_onPeerDead]
      exact h.wf.removeNode addr
    · simp only [H.ring_onPeerDead]
      rw [h.wf.lookup_removeNode, h.own, if_neg]
      exact fun heq => hne (Option.some.inj heq)
  | merge incoming =>
    refine ⟨h.wf, ?_⟩
    rw [merge_self]
    exact h.own
  | serve op =>
    refine ⟨?_, ?_⟩
    · rw [H.ring_serve]
      exact h.wf
    · simp only [H.ring_serve]
      exact h.own

theorem Member.Rooted.step {conf : Finset GoString} (h : m.Rooted H) (hwired : m.Wired H conf)
    (ev : MemberEvent Op) : (m.step H ev).Rooted H := h.moves hwired (moves_step H m ev)

/-! ## States without callbacks to come -/

/-- **The ring is the configuration without the declared dead**, in a state
in which no callback is to come; what the view holds dead is off it, and
what was declared dead is off it too, whatever the view holds. -/
structure Member.RingFollows (H : Host σ Op) (conf : Finset GoString) (m : Member σ) : Prop where
  nodes : (H.ring m.host).nodes = conf \ m.deaths.toFinset
  dead : ∀ addr, m.HoldsDead addr → addr ∉ (H.ring m.host).nodes
  revived : ∀ addr ∈ m.deaths, addr ∉ (H.ring m.host).nodes
  self : m.gossip.self ∉ m.deaths

theorem Member.Wired.follows {conf : Finset GoString} (h : m.Wired H conf)
    (hpending : m.pending = []) : m.RingFollows H conf := by
  obtain ⟨done, hring, hdeaths⟩ := h.ring
  have hnodes : (H.ring m.host).nodes = conf \ m.deaths.toFinset := by
    rw [hring, hdeaths, hpending]
    simp
  have hoff : ∀ addr ∈ m.deaths, addr ∉ (H.ring m.host).nodes := by
    intro addr haddr hmem
    rw [hnodes, Finset.mem_sdiff, List.mem_toFinset] at hmem
    exact hmem.2 haddr
  exact ⟨hnodes, fun addr haddr => hoff addr (h.logged addr haddr), hoff, h.self⟩

/-- **Along every run of a metastore node and of a broker**, in every state
in which no callback is to come, the ring follows the deaths declared. -/
theorem ring_follows :
    (∀ (env : Metastore.Env) (maxMemBytes : ℤ) (self : GoString) (peersEnv : List GoString)
      (lsm : Metastore.History) (evs : List (MemberEvent Metastore.Action)),
      let peers := mainPeers self peersEnv
      let m := (Member.start self peersEnv (Metastore.newServer self lsm peers)).run
        (Metastore.serverHost env maxMemBytes) evs
      m.pending = [] → m.RingFollows (Metastore.serverHost env maxMemBytes) peers.toFinset) ∧
    (∀ (self : GoString) (peersEnv : List GoString) (evs : List (MemberEvent GoString)),
      let peers := mainPeers self peersEnv
      let m := (Member.start self peersEnv (Broker.newBroker self peers)).run Broker.host evs
      m.pending = [] → m.RingFollows Broker.host peers.toFinset) := by
  constructor
  · intro env maxMemBytes self peersEnv lsm evs peers m hpending
    exact ((Member.wired_start (newRing_nodes _)).run evs).follows hpending
  · intro self peersEnv evs peers m hpending
    exact ((Member.wired_start (newRing_nodes _)).run evs).follows hpending

/-- **A peer that came back parts ring and view.** -/
theorem Member.RingFollows.nodes_ne {conf : Finset GoString} (h : m.RingFollows H conf)
    (addr : GoString) (hconf : addr ∈ conf) (hdeath : addr ∈ m.deaths)
    (halive : ¬ m.HoldsDead addr) :
    (H.ring m.host).nodes ≠ conf.filter fun p => ¬ m.HoldsDead p := by
  intro heq
  refine h.revived addr hdeath ?_
  rw [heq, Finset.mem_filter]
  exact ⟨hconf, halive⟩

/-! ## A run in which they disagree -/

/-- A peer is silent for twenty seconds, declared dead and taken off the
ring; then a packet brings its refutation. -/
def refutation (Op : Type) : List (MemberEvent Op) :=
  [.advance 20000000000, .tick [[98]], .callback,
    .merge [{ addr := [98], heartbeatAt := 0, incarnation := 1, status := .alive }]]

/-- The silence alone, on a node of a store. -/
theorem ring_follows_silence :
    ((Member.start [97] [[98]] (Metastore.newServer [97] (.init Metastore.sampleEnv 0)
      (mainPeers [97] [[98]]))).run (Metastore.serverHost Metastore.sampleEnv 0)
        ((refutation _).take 3)).RingFollows (Metastore.serverHost Metastore.sampleEnv 0)
      (mainPeers [97] [[98]]).toFinset :=
  ring_follows.1 _ _ _ _ _ _ (by decide)

/-- **Ring and failure detector disagree**: the view holds the peer alive
again, and the ring does not have it. -/
theorem not_ring_agrees : ¬ ∀ (env : Metastore.Env) (maxMemBytes : ℤ) (self : GoString)
    (peersEnv : List GoString) (lsm : Metastore.History)
    (evs : List (MemberEvent Metastore.Action)),
    let peers := mainPeers self peersEnv
    let m := (Member.start self peersEnv (Metastore.newServer self lsm peers)).run
      (Metastore.serverHost env maxMemBytes) evs
    m.pending = [] → ((Metastore.serverHost env maxMemBytes).ring m.host).nodes
      = peers.toFinset.filter fun p => ¬ m.HoldsDead p := by
  intro h
  have hagree := h Metastore.sampleEnv 0 [97] [[98]] (.init Metastore.sampleEnv 0) (refutation _)
    (by decide)
  exact ((Member.wired_start (newRing_nodes _)).run _).follows (by decide)
    |>.nodes_ne [98] (by decide) (by decide) (by decide) hagree

end Peers

end TftAnalytics

import TftAnalytics.Gossip.Helpers.Cluster
import Mathlib.Data.List.Induction
/-!
# Gossip — who a survivor hears of a crashed node from

`merge` takes any `alive` entry for a sign of life: it sets the heartbeat
to its own clock, whoever sends the entry and however old it is. Survivors
that hold a crashed node alive say so to each other, and its heartbeat
moves on at all of them. It stands still exactly in the runs in which
every packet about it is harmless, and in those their ticks report it.
-/

namespace TftAnalytics

namespace Gossip

open Cluster

variable {c : Cluster} {b : GoString} {evs : List Event}

/-- What holds of the merges along a run is not lost when it is cut. -/
theorem Frozen.of_prefix (h : Frozen c b evs) {evs' : List Event} (hpre : evs' <+: evs) :
    Frozen c b evs' :=
  fun pre ev hev => h pre ev (hev.trans hpre)

/-- **A merge touches a node that is gone just when it is not harmless to
it**, all along a run. -/
theorem frozen_iff (hc : c.Named) (b : GoString) (evs : List Event) :
    Frozen c b evs ↔ AllHarmless c b evs := by
  refine forall_congr' fun pre => forall_congr' fun ev => forall_congr' fun _ =>
    forall_congr' fun hquiet => forall₂_congr fun x hx => ?_
  exact untouched_merge (hquiet.ne_self (hc.run pre) (live_of_merges hx)) x.2.payload

/-- **A survivor's view along a run**: of a node that is gone it has the
heartbeat it had, or an older one. -/
theorem Frozen.lookup_run {pre mid : List Event} (h : Frozen c b (pre ++ mid)) (hc : c.Named)
    (hquiet : (c.run pre).Quiet b) {n : GoString} {p' : Process}
    (hp' : p' ∈ (c.run (pre ++ mid)).live n) :
    (c.run (pre ++ mid)).Quiet b ∧ ∃ p ∈ (c.run pre).live n, ∀ m ∈ p.gossip.members.lookup b,
      ∃ m' ∈ p'.gossip.members.lookup b, m'.heartbeatAt ≤ m.heartbeatAt := by
  induction mid using List.reverseRecOn generalizing p' with
  | nil =>
    rw [List.append_nil] at hp' ⊢
    exact ⟨hquiet, p', hp', fun m hm => ⟨m, hm, le_rfl⟩⟩
  | append_singleton mid ev ih =>
    rw [← List.append_assoc] at h hp' ⊢
    have hcut : pre ++ mid <+: (pre ++ mid) ++ [ev] := List.prefix_append _ _
    have hq : (c.run (pre ++ mid)).Quiet b := by
      rw [run_append]
      exact hquiet.run mid
    rw [run_concat] at hp' ⊢
    refine ⟨hq.step ev, ?_⟩
    obtain ⟨p₁, hp₁, hlast⟩ := hq.lookup_step (hc.run _) (h _ ev List.prefix_rfl hq) hp'
    obtain ⟨-, p, hp, hfirst⟩ := ih (h.of_prefix hcut) hp₁
    refine ⟨p, hp, fun m hm => ?_⟩
    obtain ⟨m₁, hm₁, hle₁⟩ := hfirst m hm
    obtain ⟨m', hm', hle⟩ := hlast m₁ hm₁
    exact ⟨m', hm', hle.trans hle₁⟩

/-- **Where the heartbeat stands still, ticks report the node.** -/
theorem Frozen.detects (h : Frozen c b evs) (hc : c.Named) : Detects c b evs := by
  intro pre mid hpre hquiet n p hp m hm p' hp'
  obtain ⟨hquiet', q, hq, hlookup⟩ := (h.of_prefix hpre).lookup_run hc hquiet hp'
  obtain rfl := Option.mem_unique hp hq
  obtain ⟨m', hm', hle⟩ := hlookup m hm
  obtain ⟨-, hsuspect, hdead⟩ := ageMember_spec p'.clock m'
  refine ⟨GossipNode.ageMember p'.clock m', ?_, fun hage => hsuspect ?_, fun hage => hdead ?_⟩
  · have hne := hquiet'.ne_self (hc.run _) hp'
    rw [tick_lookup, Option.mem_def.mp hm', Option.map_some, GossipNode.tickMember, if_neg hne]
    rfl
  · exact hage.trans (sub_le_sub_left hle _)
  · exact hage.trans (sub_le_sub_left hle _)

/-- **Exactly the runs whose packets are harmless leave a crashed node to
its silence.** In every run of every cluster, no merge at a survivor moves
the heartbeat of a node that is gone or brings it back to life if and only
if every packet merged is harmless to it; and then the ticks of the
survivors report it suspected and dead. -/
theorem frozen_iff_allHarmless (config : AList fun _ : GoString => List GoString) (b : GoString)
    (evs : List Event) :
    (Frozen (.init config) b evs ↔ AllHarmless (.init config) b evs) ∧
      (AllHarmless (.init config) b evs → Detects (.init config) b evs) := by
  have hiff := frozen_iff (named_init config) b evs
  exact ⟨hiff, fun h => (hiff.mpr h).detects (named_init config)⟩

/-! ## A cluster in which it fails -/

/-- The second node crashes, a second passes at the third, and the first
sends its view, in which the second is alive as it was at the start. -/
def hearsay : List Event :=
  [.crash [98], .advance [99] 1000000000,
    .disseminate [97] (GossipNode.new [97] [[98], [99]] 0).snapshot [[98], [99]], .deliver 1]

/-- **Detection is not driven by the member**: the third node hears of the
second from the first, and its heartbeat moves on. -/
theorem not_frozen : ¬ ∀ (config : AList fun _ : GoString => List GoString) (b : GoString)
    (evs : List Event), 3 ≤ config.entries.length → Frozen (.init config) b evs := by
  intro h
  have hfrozen := h trio [98] hearsay (by decide) (hearsay.take 3) (.deliver 1) ⟨[], rfl⟩
  set c := (Cluster.init trio).run (hearsay.take 3) with hc
  have hquiet : c.Quiet [98] := by
    refine ⟨⟨(c.procs [98]).get (by decide), by simp, by decide⟩, ?_⟩
    have hsrc : ∀ s ∈ c.flight.map (·.src), s ≠ [98] := by decide
    exact fun pkt hpkt => hsrc _ (List.mem_map_of_mem hpkt)
  have hmoved : ((c.merges (.deliver 1)).bind fun x =>
      (x.1.gossip.members.lookup [98]).bind fun m =>
        ((x.1.gossip.merge x.1.clock x.2.payload).members.lookup [98]).map fun m' =>
          (m.heartbeatAt, m'.heartbeatAt)) = some (0, 1000000000) := by decide
  obtain ⟨x, hx, hmoved⟩ := Option.bind_eq_some_iff.mp hmoved
  obtain ⟨m, hm, hmoved⟩ := Option.bind_eq_some_iff.mp hmoved
  obtain ⟨m', hm', heq⟩ := Option.map_eq_some_iff.mp hmoved
  rw [Prod.mk.injEq] at heq
  obtain ⟨hle, -⟩ := hfrozen hquiet x hx m hm m' hm'
  rw [heq.1, heq.2] at hle
  exact absurd hle (by decide)

end Gossip

end TftAnalytics

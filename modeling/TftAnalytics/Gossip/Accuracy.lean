import TftAnalytics.Gossip.Helpers.Cluster
import Mathlib.Data.List.Induction
/-!
# Gossip — who is suspected

`merge` never lowers the status of a member: what others say of it is taken
for a sign of life, or not at all. So a node suspects another of its own
accord, when it has heard no sign of life of it for `suspectAfter`, and
every packet of a node is one, since its own entry is always alive.
-/

namespace TftAnalytics

namespace Gossip

open Cluster

variable {c : Cluster} {n b : GoString} {evs : List Event} {ev : Event} {now : Time}

/-- A packet is a sign of life of `b`: `b` has sent it, or it lists `b` as
alive. -/
def Packet.Tells (b : GoString) (pkt : Packet) : Prop :=
  pkt.src = b ∨ ∃ inc ∈ pkt.payload, inc.addr = b ∧ inc.status = .alive

/-- Along a run `n` merges a sign of life of `b`, when its clock shows
`t`. -/
def Heard (c : Cluster) (n b : GoString) (evs : List Event) (t : Time) : Prop :=
  ∃ pre ev rest, evs = pre ++ ev :: rest ∧
    ∃ x ∈ (c.run pre).merges ev, x.2.dst = n ∧ x.2.Tells b ∧ x.1.clock = t

/-- **A silence**: at some moment of a run `n` has not heard of `b` for so
long, nor been running for less. -/
def Silence (c : Cluster) (n b : GoString) (evs : List Event) (long : Time) : Prop :=
  ∃ pre, pre <+: evs ∧ ∃ q ∈ (c.run pre).live n, long ≤ q.clock ∧
    ∀ t, Heard c n b pre t → long ≤ q.clock - t

/-! ## Merges -/

/-- **A merge raises a member or leaves it**: its heartbeat is as it was or
is the time of the merge, which it is if the member is listed as alive; and
if it is not alive now, then its status is as it was. -/
theorem foldl_absorb_spec (now : Time) (o : Option MemberState) (l : List MemberState) :
    ∀ m' ∈ l.foldl (absorb now) o,
      ((∃ m ∈ o, m'.heartbeatAt = m.heartbeatAt) ∨ m'.heartbeatAt = now) ∧
        ((∃ inc ∈ l, inc.status = .alive) → m'.heartbeatAt = now) ∧
        (m'.status ≠ .alive → ∃ m ∈ o, m'.status = m.status) := by
  induction l using List.reverseRecOn with
  | nil => exact fun m' hm' => ⟨Or.inl ⟨m', hm', rfl⟩, by simp, fun _ => ⟨m', hm', rfl⟩⟩
  | append_singleton l inc ih =>
    intro m' hm'
    rw [List.foldl_append, List.foldl_cons, List.foldl_nil] at hm'
    obtain rfl := Option.some.inj hm'
    cases hcur : l.foldl (absorb now) o with
    | none => exact ⟨Or.inr rfl, fun _ => rfl, fun hne => absurd rfl hne⟩
    | some cur =>
      obtain ⟨hfrom, halive, hstatus⟩ := ih cur hcur
      rcases refresh_cases now cur inc with ⟨hnews, -, heq⟩ | ⟨-, -, -, heq⟩ | ⟨-, -, hnow, hlive⟩
      · -- no news
        rw [Option.elim_some, heq]
        refine ⟨hfrom, fun hmem => halive ?_, hstatus⟩
        obtain ⟨x, hx, hxalive⟩ := hmem
        rcases List.mem_append.mp hx with hx | hx
        · exact ⟨x, hx, hxalive⟩
        · obtain rfl := List.mem_singleton.mp hx
          exact absurd hxalive hnews
      · -- dead, and dead it stays
        rw [Option.elim_some, heq]
        exact ⟨Or.inr rfl, fun _ => rfl, hstatus⟩
      · exact ⟨Or.inr hnow, fun _ => hnow, fun hne => absurd hlive hne⟩

/-! ## A node's own entry -/

/-- **Every node lists itself as alive**, and so does what it has sent. -/
structure Cluster.Honest (c : Cluster) : Prop where
  own : ∀ n, ∀ p ∈ c.procs n, ∃ m ∈ p.gossip.members.lookup n, m.addr = n ∧ m.status = .alive
  flight : ∀ pkt ∈ c.flight, ∃ inc ∈ pkt.payload, inc.addr = pkt.src ∧ inc.status = .alive

theorem honest_init (config : AList fun _ : GoString => List GoString) : (init config).Honest where
  own n p hp := by
    obtain ⟨peers, -, rfl⟩ := Option.map_eq_some_iff.mp hp
    exact ⟨_, new_lookup_self n peers 0, rfl, rfl⟩
  flight _ h := absurd h List.not_mem_nil

theorem Cluster.Honest.step (h : c.Honest) (hc : c.Named) (ev : Event) : (c.step ev).Honest where
  own n p' hp' := by
    obtain ⟨p, hp, rfl | ⟨d, rfl⟩ | rfl | ⟨-, rfl⟩ | ⟨-, pkt, -, rfl⟩⟩ := procs_step hp'
    · exact h.own n p' hp
    · exact h.own n p hp
    · exact h.own n p hp
    · obtain ⟨m, hm, haddr, halive⟩ := h.own n p hp
      refine ⟨p.gossip.tickMember p.clock n m, ?_, ?_⟩
      · rw [tick_lookup, Option.mem_def.mp hm]
        rfl
      · rw [GossipNode.tickMember, if_pos (hc n p hp).symm]
        exact ⟨haddr, halive⟩
    · have hself := merge_lookup_self p.gossip p.clock pkt.payload
      rw [hc n p hp] at hself
      exact hself ▸ h.own n p hp
  flight pkt hpkt := by
    cases ev with
    | advance x d => exact h.flight pkt hpkt
    | tick x => exact h.flight pkt hpkt
    | disseminate x view targets =>
      rw [Cluster.step] at hpkt
      split at hpkt
      · exact h.flight pkt hpkt
      · rename_i p hp
        split_ifs at hpkt with hsend
        · rcases List.mem_append.mp hpkt with hpkt | hpkt
          · exact h.flight pkt hpkt
          · -- a view is a permutation of the snapshot, so the own entry is in it
            obtain ⟨t, -, rfl⟩ := List.mem_map.mp hpkt
            obtain ⟨m, hm, haddr, halive⟩ := h.own x p (mem_live.mp hp).1
            refine ⟨m, hsend.1.mem_iff.mpr ?_, haddr, halive⟩
            exact List.mem_map.mpr ⟨⟨x, m⟩, AList.mem_lookup_iff.mp hm, rfl⟩
        · exact h.flight pkt hpkt
    | deliver i =>
      rw [Cluster.step] at hpkt
      split at hpkt
      · exact h.flight pkt hpkt
      · exact h.flight pkt (List.mem_of_mem_eraseIdx hpkt)
    | lose i => exact h.flight pkt (List.mem_of_mem_eraseIdx hpkt)
    | crash x => exact h.flight pkt hpkt

/-! ## Runs -/

/-- A merge at `n`, and what the event makes of `n`. -/
theorem step_of_merges {p p' : Process} {pkt : Packet} (h : (p, pkt) ∈ c.merges ev)
    (hp' : p' ∈ (c.step ev).procs pkt.dst) :
    p ∈ c.live pkt.dst ∧ p' = { p with gossip := p.gossip.merge p.clock pkt.payload } := by
  refine ⟨live_of_merges h, ?_⟩
  cases ev with
  | deliver i =>
    obtain ⟨q, hq, hmap⟩ := Option.bind_eq_some_iff.mp h
    obtain ⟨r, hr, heq⟩ := Option.map_eq_some_iff.mp hmap
    obtain ⟨rfl, rfl⟩ := Prod.mk.inj heq
    rw [Cluster.step, hq] at hp'
    obtain ⟨s, hs, heq⟩ := mem_update.mp hp'
    obtain ⟨hr, hlive⟩ := mem_live.mp hr
    obtain rfl := Option.mem_unique hr hs
    rw [if_pos rfl, hlive] at heq
    exact heq.symm
  | _ => cases h

theorem heard_concat {t : Time} : Heard c n b (evs ++ [ev]) t ↔ Heard c n b evs t ∨
    ∃ x ∈ (c.run evs).merges ev, x.2.dst = n ∧ x.2.Tells b ∧ x.1.clock = t := by
  constructor
  · rintro ⟨pre, ev', rest, heq, hx⟩
    rcases List.eq_nil_or_concat rest with rfl | ⟨rest, last, rfl⟩
    · obtain ⟨rfl, hev⟩ := List.append_inj' heq rfl
      obtain rfl : ev = ev' := by simpa using hev
      exact Or.inr hx
    · rw [List.concat_eq_append, ← List.cons_append, ← List.append_assoc] at heq
      obtain ⟨rfl, -⟩ := List.append_inj' heq rfl
      exact Or.inl ⟨pre, ev', rest, rfl, hx⟩
  · rintro (⟨pre, ev', rest, rfl, hx⟩ | hx)
    · exact ⟨pre, ev', rest ++ [ev], by simp, hx⟩
    · exact ⟨evs, ev, [], rfl, hx⟩

theorem Silence.concat {long : Time} (h : Silence c n b evs long) (ev : Event) :
    Silence c n b (evs ++ [ev]) long := by
  obtain ⟨pre, hpre, hq⟩ := h
  exact ⟨pre, hpre.trans (List.prefix_append _ _), hq⟩

/-- **What a node knows of another along a run**: its heartbeat is as new as
the last sign of life, and there was a silence if it is not alive. -/
structure Grounded (c : Cluster) (n b : GoString) (evs : List Event) (p : Process) : Prop where
  clock : 0 ≤ p.clock
  past : ∀ t, Heard c n b evs t → t ≤ p.clock
  heartbeat : ∀ m ∈ p.gossip.members.lookup b, 0 ≤ m.heartbeatAt ∧ m.heartbeatAt ≤ p.clock ∧
    ∀ t, Heard c n b evs t → t ≤ m.heartbeatAt
  suspected : ∀ m ∈ p.gossip.members.lookup b, m.status ≠ .alive → Silence c n b evs suspectAfter
  dead : ∀ m ∈ p.gossip.members.lookup b, m.status = .dead → Silence c n b evs deadAfter

/-- A member that a tick leaves not alive was not, or is old enough. -/
theorem ageMember_not_alive {m : MemberState}
    (h : (GossipNode.ageMember now m).status ≠ .alive) :
    m.status ≠ .alive ∨ suspectAfter ≤ now - m.heartbeatAt := by
  simp only [GossipNode.ageMember] at h
  split_ifs at h with hdead hsuspect
  · have hle : suspectAfter ≤ deadAfter := by decide
    exact Or.inr (hle.trans hdead.1)
  · exact Or.inr hsuspect.1
  · exact Or.inl h

theorem mem_flight_of_merges {p : Process} {pkt : Packet} (h : (p, pkt) ∈ c.merges ev) :
    pkt ∈ c.flight := by
  cases ev with
  | deliver i =>
    obtain ⟨q, hq, hmap⟩ := Option.bind_eq_some_iff.mp h
    obtain ⟨r, -, heq⟩ := Option.map_eq_some_iff.mp hmap
    obtain ⟨-, rfl⟩ := Prod.mk.inj heq
    exact List.mem_of_getElem? hq
  | _ => cases h

/-- **A merge.** -/
theorem Grounded.merge {p : Process} {pkt : Packet} (h : Grounded c n b evs p) (hne : b ≠ n)
    (hnamed : (c.run evs).Named) (honest : (c.run evs).Honest)
    (hmerge : (p, pkt) ∈ (c.run evs).merges ev) (hdst : pkt.dst = n) :
    Grounded c n b (evs ++ [ev])
      { p with gossip := p.gossip.merge p.clock pkt.payload } := by
  have hself : b ≠ p.gossip.self := by
    rwa [hnamed n p (hdst ▸ (mem_live.mp (live_of_merges hmerge)).1)]
  have hheard : ∀ t, Heard c n b (evs ++ [ev]) t →
      Heard c n b evs t ∨ t = p.clock ∧ pkt.Tells b := by
    intro t ht
    rcases heard_concat.mp ht with ht | ⟨x, hx, -, htells, rfl⟩
    · exact Or.inl ht
    · obtain rfl := Option.mem_unique hmerge hx
      exact Or.inr ⟨rfl, htells⟩
  -- a packet of `b` lists `b` as alive, too
  have hlisted : pkt.Tells b →
      ∃ inc ∈ pkt.payload.filter fun inc => inc.addr = b, inc.status = .alive := by
    rintro (rfl | ⟨inc, hinc, haddr, halive⟩)
    · obtain ⟨inc, hinc, haddr, halive⟩ := honest.flight pkt (mem_flight_of_merges hmerge)
      exact ⟨inc, List.mem_filter.mpr ⟨hinc, decide_eq_true haddr⟩, halive⟩
    · exact ⟨inc, List.mem_filter.mpr ⟨hinc, decide_eq_true haddr⟩, halive⟩
  have hspec : ∀ m' ∈ (p.gossip.merge p.clock pkt.payload).members.lookup b, _ := fun m' hm' =>
    foldl_absorb_spec p.clock _ _ m' (merge_lookup hself pkt.payload ▸ hm')
  refine ⟨h.clock, fun t ht => ?_, fun m' hm' => ?_, fun m' hm' hstatus => ?_,
    fun m' hm' hstatus => ?_⟩
  · rcases hheard t ht with ht | ⟨rfl, -⟩
    · exact h.past t ht
    · exact le_rfl
  · obtain ⟨hfrom, halive, -⟩ := hspec m' hm'
    rcases hfrom with ⟨m, hm, heq⟩ | hnow
    · obtain ⟨hpos, hle, hafter⟩ := h.heartbeat m hm
      refine ⟨heq ▸ hpos, heq ▸ hle, fun t ht => ?_⟩
      rcases hheard t ht with ht | ⟨rfl, htells⟩
      · exact heq ▸ hafter t ht
      · exact (halive (hlisted htells)).ge
    · refine ⟨hnow ▸ h.clock, hnow.le, fun t ht => ?_⟩
      rcases hheard t ht with ht | ⟨rfl, -⟩
      · exact hnow ▸ h.past t ht
      · exact hnow.ge
  · obtain ⟨m, hm, heq⟩ := (hspec m' hm').2.2 hstatus
    exact (h.suspected m hm (heq ▸ hstatus)).concat ev
  · obtain ⟨m, hm, heq⟩ := (hspec m' hm').2.2 (by simp [hstatus])
    exact (h.dead m hm (heq ▸ hstatus)).concat ev

/-- **A tick.** -/
theorem Grounded.tick {p : Process} (h : Grounded c n b evs p) (hself : b ≠ p.gossip.self)
    (hp : p ∈ (c.run evs).live n) :
    Grounded c n b evs { p with gossip := p.gossip.tick p.clock } := by
  have hlookup : ∀ m' ∈ (p.gossip.tick p.clock).members.lookup b,
      ∃ m ∈ p.gossip.members.lookup b, m' = GossipNode.ageMember p.clock m := by
    intro m' hm'
    rw [tick_lookup] at hm'
    obtain ⟨m, hm, rfl⟩ := Option.map_eq_some_iff.mp hm'
    exact ⟨m, hm, by rw [GossipNode.tickMember, if_neg hself]⟩
  -- an age that is reached is a silence
  have hsilence : ∀ m ∈ p.gossip.members.lookup b, ∀ long, long ≤ p.clock - m.heartbeatAt →
      Silence c n b evs long := by
    intro m hm long hage
    obtain ⟨hpos, -, hafter⟩ := h.heartbeat m hm
    exact ⟨evs, List.prefix_rfl, p, hp, hage.trans (sub_le_self _ hpos),
      fun t ht => hage.trans (sub_le_sub_left (hafter t ht) _)⟩
  refine ⟨h.clock, h.past, fun m' hm' => ?_, fun m' hm' hstatus => ?_, fun m' hm' hstatus => ?_⟩
  · obtain ⟨m, hm, rfl⟩ := hlookup m' hm'
    rw [(ageMember_spec p.clock m).1]
    exact h.heartbeat m hm
  · obtain ⟨m, hm, rfl⟩ := hlookup m' hm'
    rcases ageMember_not_alive hstatus with hold | hage
    · exact h.suspected m hm hold
    · exact hsilence m hm _ hage
  · obtain ⟨m, hm, rfl⟩ := hlookup m' hm'
    rcases ageMember_dead.mp hstatus with hold | hage
    · exact h.dead m hm hold
    · exact hsilence m hm _ hage

theorem Grounded.quiet {p : Process} (h : Grounded c n b evs p)
    (hnone : ∀ t, Heard c n b (evs ++ [ev]) t → Heard c n b evs t) :
    Grounded c n b (evs ++ [ev]) p where
  clock := h.clock
  past t ht := h.past t (hnone t ht)
  heartbeat m hm := ⟨(h.heartbeat m hm).1, (h.heartbeat m hm).2.1,
    fun t ht => (h.heartbeat m hm).2.2 t (hnone t ht)⟩
  suspected m hm hstatus := (h.suspected m hm hstatus).concat ev
  dead m hm hstatus := (h.dead m hm hstatus).concat ev

/-- **A whole run.** -/
theorem grounded_run (config : AList fun _ : GoString => List GoString) (hne : b ≠ n)
    (evs : List Event) : ((init config).run evs).Honest ∧
      ∀ p ∈ ((init config).run evs).procs n, Grounded (init config) n b evs p := by
  have hnamed := (named_init config).run
  induction evs using List.reverseRecOn with
  | nil =>
    have hnever : ∀ t, ¬ Heard (init config) n b [] t := fun t => by
      rintro ⟨pre, ev, rest, heq, -⟩
      simp at heq
    refine ⟨honest_init config, fun p hp => ?_⟩
    obtain ⟨peers, -, rfl⟩ := Option.map_eq_some_iff.mp hp
    have hfresh : ∀ m ∈ (GossipNode.new n peers 0).members.lookup b, m = GossipNode.fresh 0 b :=
      fun m hm => new_fresh hm
    refine ⟨le_rfl, fun t ht => absurd ht (hnever t), fun m hm => ?_, fun m hm hstatus => ?_,
      fun m hm hstatus => ?_⟩
    · rw [hfresh m hm]
      exact ⟨le_rfl, le_rfl, fun t ht => absurd ht (hnever t)⟩
    · exact absurd (new_alive hm) hstatus
    · rw [new_alive hm] at hstatus
      cases hstatus
  | append_singleton evs ev ih =>
    obtain ⟨honest, hgrounded⟩ := ih
    rw [run_concat]
    refine ⟨honest.step (hnamed evs) ev, fun p' hp' => ?_⟩
    by_cases hmerge : ∃ x ∈ ((init config).run evs).merges ev, x.2.dst = n
    · obtain ⟨⟨p, pkt⟩, hx, rfl⟩ := hmerge
      obtain ⟨hp, rfl⟩ := step_of_merges hx hp'
      exact (hgrounded p (mem_live.mp hp).1).merge hne (hnamed evs) honest hx rfl
    · have hnone : ∀ t, Heard (init config) n b (evs ++ [ev]) t →
          Heard (init config) n b evs t := by
        intro t ht
        rcases heard_concat.mp ht with ht | ⟨x, hx, hdst, -⟩
        · exact ht
        · exact absurd ⟨x, hx, hdst⟩ hmerge
      obtain ⟨p, hp, rfl | ⟨d, rfl⟩ | rfl | ⟨hlive, rfl⟩ | ⟨-, pkt, hpkt, -⟩⟩ := procs_step hp'
      · exact (hgrounded _ hp).quiet hnone
      · -- time passes
        have hp := (hgrounded _ hp).quiet hnone
        have hlater : p.clock ≤ p.clock + d := le_add_of_nonneg_right (Int.natCast_nonneg d)
        exact ⟨hp.clock.trans hlater, fun t ht => (hp.past t ht).trans hlater,
          fun m hm => ⟨(hp.heartbeat m hm).1, (hp.heartbeat m hm).2.1.trans hlater,
            (hp.heartbeat m hm).2.2⟩, hp.suspected, hp.dead⟩
      · have hp := (hgrounded _ hp).quiet hnone
        exact ⟨hp.clock, hp.past, hp.heartbeat, hp.suspected, hp.dead⟩
      · have hself : b ≠ p.gossip.self := by rwa [hnamed evs n p hp]
        exact ((hgrounded p hp).tick hself (mem_live.mpr ⟨hp, hlive⟩)).quiet hnone
      · refine absurd ⟨_, hpkt, ?_⟩ hmerge
        have hdst := hnamed evs _ p (mem_live.mp (live_of_merges hpkt)).1
        exact hdst.symm.trans (hnamed evs n p hp)

/-- **Suspicion is local, and accurate.** In every run of every cluster, if a
node holds another for suspected or dead, then at some moment it had heard
no sign of life of it for `suspectAfter`, or for `deadAfter` if it holds it
for dead, and had been running for as long. Every packet that the other has
sent is a sign of life, whatever became of the view of it elsewhere. -/
theorem suspicion_accurate (config : AList fun _ : GoString => List GoString) (hne : b ≠ n)
    (evs : List Event) {p : Process} (hp : p ∈ ((init config).run evs).procs n) {m : MemberState}
    (hm : m ∈ p.gossip.members.lookup b) :
    (m.status ≠ .alive → Silence (init config) n b evs suspectAfter) ∧
      (m.status = .dead → Silence (init config) n b evs deadAfter) := by
  have hgrounded := (grounded_run config hne evs).2 p hp
  exact ⟨hgrounded.suspected m hm, hgrounded.dead m hm⟩

/-- Ten seconds pass at the first node, in which it hears nothing. -/
def deaf : List Event := [.advance [97] 10000000000, .tick [97]]

theorem suspicion_accurate_deaf :
    ((Status.suspected ≠ .alive → Silence (init trio) [97] [98] deaf suspectAfter) ∧
      (Status.suspected = .dead → Silence (init trio) [97] [98] deaf deadAfter)) :=
  suspicion_accurate trio (b := [98]) (n := [97]) (by decide) deaf
    (p := (((init trio).run deaf).procs [97]).get (by decide))
    (by simp) (m := ⟨[98], 0, 0, .suspected⟩) (by decide)

end Gossip

end TftAnalytics

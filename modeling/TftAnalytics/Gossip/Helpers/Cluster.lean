import TftAnalytics.Gossip.Helpers.Node
/-!
# Gossip — what an event does to a process

Helper layer. A process keeps its identity, a survivor's view changes by a
tick or a merge at a time, and a node that is gone stays gone.
-/

namespace TftAnalytics

namespace Gossip

namespace Cluster

variable {c : Cluster} {n b : GoString} {ev : Event} {p p' : Process} {f : Process → Process}

theorem run_append (c : Cluster) (evs evs' : List Event) :
    c.run (evs ++ evs') = (c.run evs).run evs' := List.foldl_append

theorem run_concat (c : Cluster) (evs : List Event) (ev : Event) :
    c.run (evs ++ [ev]) = (c.run evs).step ev := run_append c evs [ev]

theorem mem_live : p ∈ c.live n ↔ p ∈ c.procs n ∧ p.crashed = false := by
  simp [live, Option.filter_eq_some_iff]

theorem mem_update : p' ∈ (c.update n f).procs b ↔
    ∃ p ∈ c.procs b, (if b = n then f p else p) = p' := by
  by_cases hb : b = n
  · subst hb
    simp [update]
  · simp [update, hb]

/-- **What an event does to a process.** -/
theorem procs_step (h : p' ∈ (c.step ev).procs n) : ∃ p ∈ c.procs n,
    p' = p ∨ (∃ d : ℕ, p' = { p with clock := p.clock + d }) ∨ p' = { p with crashed := true } ∨
      (p.crashed = false ∧ p' = { p with gossip := p.gossip.tick p.clock }) ∨
      (p.crashed = false ∧ ∃ pkt, (p, pkt) ∈ c.merges ev ∧
        p' = { p with gossip := p.gossip.merge p.clock pkt.payload }) := by
  cases ev with
  | advance x d =>
    obtain ⟨p, hp, rfl⟩ := mem_update.mp h
    refine ⟨p, hp, ?_⟩
    split_ifs
    · exact Or.inr (Or.inl ⟨d, rfl⟩)
    · exact Or.inl rfl
  | tick x =>
    obtain ⟨p, hp, rfl⟩ := mem_update.mp h
    refine ⟨p, hp, ?_⟩
    split_ifs with hx hcrashed
    · exact Or.inl rfl
    · exact Or.inr (Or.inr (Or.inr (Or.inl ⟨by simpa using hcrashed, rfl⟩)))
    · exact Or.inl rfl
  | disseminate x view targets =>
    refine ⟨p', ?_, Or.inl rfl⟩
    rw [step] at h
    split at h
    · exact h
    · split_ifs at h <;> exact h
  | deliver i =>
    rw [step] at h
    split at h
    · exact ⟨p', h, Or.inl rfl⟩
    · rename_i pkt hpkt
      obtain ⟨p, hp, rfl⟩ := mem_update.mp h
      refine ⟨p, hp, ?_⟩
      split_ifs with hx hcrashed
      · exact Or.inl rfl
      -- the packet is for this process, which is up: it merges
      · have hcrashed' : p.crashed = false := by simpa using hcrashed
        refine Or.inr (Or.inr (Or.inr (Or.inr ⟨hcrashed', pkt, ?_, rfl⟩)))
        have hp' : p ∈ c.live n := mem_live.mpr ⟨hp, hcrashed'⟩
        rw [merges, hpkt, Option.bind_some, ← hx, Option.mem_def.mp hp']
        rfl
      · exact Or.inl rfl
  | lose i => exact ⟨p', h, Or.inl rfl⟩
  | crash x =>
    obtain ⟨p, hp, rfl⟩ := mem_update.mp h
    refine ⟨p, hp, ?_⟩
    split_ifs
    · exact Or.inr (Or.inr (Or.inl rfl))
    · exact Or.inl rfl

/-- Processes answer to their names. -/
def Named (c : Cluster) : Prop := ∀ n, ∀ p ∈ c.procs n, p.gossip.self = n

theorem named_init (config : AList fun _ : GoString => List GoString) : (init config).Named := by
  intro n p hp
  obtain ⟨peers, -, rfl⟩ := Option.map_eq_some_iff.mp hp
  rfl

theorem Named.step (h : c.Named) (ev : Event) : (c.step ev).Named := by
  intro n p' hp'
  obtain ⟨p, hp, rfl | ⟨d, rfl⟩ | rfl | ⟨-, rfl⟩ | ⟨-, pkt, -, rfl⟩⟩ := procs_step hp'
  · exact h n p' hp
  · exact h n p hp
  · exact h n p hp
  · exact h n p hp
  · exact (merge_self _ _ _).trans (h n p hp)

theorem Named.run (h : c.Named) (evs : List Event) : (c.run evs).Named := by
  unfold Cluster.run
  induction evs generalizing c with
  | nil => exact h
  | cons ev evs ih => exact ih (h.step ev)

/-- What is in flight was so before, or a survivor has sent it now. -/
theorem flight_step {pkt : Packet} (h : pkt ∈ (c.step ev).flight) :
    pkt ∈ c.flight ∨ ∃ p, p ∈ c.live pkt.src := by
  cases ev with
  | advance x d => exact Or.inl h
  | tick x => exact Or.inl h
  | disseminate x view targets =>
    rw [step] at h
    split at h
    · exact Or.inl h
    · rename_i p hp
      split_ifs at h
      · rcases List.mem_append.mp h with h | h
        · exact Or.inl h
        · obtain ⟨t, -, rfl⟩ := List.mem_map.mp h
          exact Or.inr ⟨p, hp⟩
      · exact Or.inl h
  | deliver i =>
    rw [step] at h
    split at h
    · exact Or.inl h
    · exact Or.inl (List.mem_of_mem_eraseIdx h)
  | lose i => exact Or.inl (List.mem_of_mem_eraseIdx h)
  | crash x => exact Or.inl h

theorem procs_isSome_step (c : Cluster) (ev : Event) (n : GoString) :
    ((c.step ev).procs n).isSome = (c.procs n).isSome := by
  have hupdate : ∀ (c : Cluster) (x : GoString) (f : Process → Process),
      ((c.update x f).procs n).isSome = (c.procs n).isSome := by
    intro c x f
    by_cases hx : n = x <;> simp [update, hx]
  cases ev with
  | advance x d => exact hupdate _ _ _
  | tick x => exact hupdate _ _ _
  | disseminate x view targets =>
    rw [step]
    split
    · rfl
    · split_ifs <;> rfl
  | deliver i =>
    rw [step]
    split
    · rfl
    · exact hupdate _ _ _
  | lose i => rfl
  | crash x => exact hupdate _ _ _

/-- **A node that is gone stays gone.** -/
theorem Quiet.step (h : c.Quiet b) (ev : Event) : (c.step ev).Quiet b := by
  obtain ⟨⟨p, hp, hcrashed⟩, hflight⟩ := h
  constructor
  · have hsome : ((c.step ev).procs b).isSome := by
      rw [procs_isSome_step, Option.mem_def.mp hp]
      rfl
    obtain ⟨p', hp'⟩ := Option.isSome_iff_exists.mp hsome
    refine ⟨p', hp', ?_⟩
    obtain ⟨q, hq, hcases⟩ := procs_step hp'
    obtain rfl := Option.mem_unique hp hq
    rcases hcases with rfl | ⟨d, rfl⟩ | rfl | ⟨hlive, -⟩ | ⟨hlive, -⟩
    · exact hcrashed
    · exact hcrashed
    · rfl
    · rw [hcrashed] at hlive
      cases hlive
    · rw [hcrashed] at hlive
      cases hlive
  · rintro pkt hpkt rfl
    rcases flight_step hpkt with hold | ⟨q, hq⟩
    · exact hflight pkt hold rfl
    · obtain ⟨hq, hlive⟩ := mem_live.mp hq
      obtain rfl := Option.mem_unique hp hq
      rw [hcrashed] at hlive
      cases hlive

theorem Quiet.run (h : c.Quiet b) (evs : List Event) : (c.run evs).Quiet b := by
  unfold Cluster.run
  induction evs generalizing c with
  | nil => exact h
  | cons ev evs ih => exact ih (h.step ev)

/-- A survivor is not the node that is gone. -/
theorem Quiet.ne_self (h : c.Quiet b) (hc : c.Named) (hp : p ∈ c.live n) : b ≠ p.gossip.self := by
  obtain ⟨⟨q, hq, hcrashed⟩, -⟩ := h
  obtain ⟨hp, hlive⟩ := mem_live.mp hp
  rw [hc n p hp]
  rintro rfl
  obtain rfl := Option.mem_unique hp hq
  rw [hlive] at hcrashed
  cases hcrashed

/-- A merge is made by a survivor. -/
theorem live_of_merges {pkt : Packet} (h : (p, pkt) ∈ c.merges ev) : p ∈ c.live pkt.dst := by
  cases ev with
  | deliver i =>
    obtain ⟨q, -, hq⟩ := Option.bind_eq_some_iff.mp h
    obtain ⟨r, hr, heq⟩ := Option.map_eq_some_iff.mp hq
    rw [Prod.mk.injEq] at heq
    obtain ⟨rfl, rfl⟩ := heq
    exact hr
  | _ => cases h

/-- **A survivor's view of a node that is gone**, behind an event that does
not touch it: known as before, with no fresher heartbeat. -/
theorem Quiet.lookup_step (h : c.Quiet b) (hc : c.Named)
    (hfrozen : ∀ x ∈ c.merges ev,
      Untouched b x.1.gossip (x.1.gossip.merge x.1.clock x.2.payload))
    (hp' : p' ∈ (c.step ev).live n) :
    ∃ p ∈ c.live n, ∀ m ∈ p.gossip.members.lookup b,
      ∃ m' ∈ p'.gossip.members.lookup b, m'.heartbeatAt ≤ m.heartbeatAt := by
  obtain ⟨hp', hlive'⟩ := mem_live.mp hp'
  obtain ⟨p, hp, hcases⟩ := procs_step hp'
  -- nothing brings a crashed process back
  have hlive : p.crashed = false := by
    rcases hcases with rfl | ⟨d, rfl⟩ | rfl | ⟨hlive, -⟩ | ⟨hlive, -⟩
    · exact hlive'
    · exact hlive'
    · cases hlive'
    · exact hlive
    · exact hlive
  have hmem : p ∈ c.live n := mem_live.mpr ⟨hp, hlive⟩
  have hne := h.ne_self hc hmem
  refine ⟨p, hmem, fun m hm => ?_⟩
  rcases hcases with rfl | ⟨d, rfl⟩ | rfl | ⟨-, rfl⟩ | ⟨-, pkt, hpkt, rfl⟩
  · exact ⟨m, hm, le_rfl⟩
  · exact ⟨m, hm, le_rfl⟩
  · exact ⟨m, hm, le_rfl⟩
  · refine ⟨p.gossip.tickMember p.clock b m, ?_, ?_⟩
    · rw [tick_lookup, Option.mem_def.mp hm]
      rfl
    · rw [GossipNode.tickMember, if_neg hne]
      exact (ageMember_spec p.clock m).1.le
  · have hlookup := merge_lookup_of_mem p.clock hne hm pkt.payload
    exact ⟨_, hlookup, (hfrozen _ hpkt m hm _ hlookup).1⟩

end Cluster

end Gossip

end TftAnalytics

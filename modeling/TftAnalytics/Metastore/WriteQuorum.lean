import TftAnalytics.Metastore.Helpers.WriteCall
import TftAnalytics.Metastore.Helpers.Trio
/-!
# Metastore — how many nodes a successful write reached

`Write` asks for two acknowledgements, or for as many as there are owners
where there are fewer, and the owners are those of the ring as it is when
the call starts. Each acknowledgement is a node of its own that has
applied the entry; a ring that gossip has emptied of the peers is content
with one.
-/

namespace TftAnalytics

namespace Metastore

open Hasher Peers

variable {env : Env} {maxMemBytes : ℤ} {c : Cluster} {w : WriteCall}

/-- A call goes on being the call it was started as. -/
theorem Cluster.writes_step {ev : Event} (hw : w ∈ (c.step env maxMemBytes ev).writes) :
    (∃ w₀ ∈ c.writes, w.self = w₀.self ∧ w.entry = w₀.entry ∧ w.owners = w₀.owners) ∨
      ev = .startWrite w.self w.entry ∧
        ∃ nd ∈ c.running w.self, w.owners = nd.owners w.entry.entityId := by
  -- whatever becomes of a call, its node, entry and owners stay
  have hmodify : ∀ k (f : WriteCall → WriteCall), (∀ w, (f w).self = w.self ∧
      (f w).entry = w.entry ∧ (f w).owners = w.owners) → w ∈ c.writes.modify k f →
      ∃ w₀ ∈ c.writes, w.self = w₀.self ∧ w.entry = w₀.entry ∧ w.owners = w₀.owners := by
    intro k f hf hw
    rcases mem_modify hw with hw | ⟨w₀, hk, rfl⟩
    · exact ⟨w, hw, rfl, rfl, rfl⟩
    · exact ⟨w₀, List.mem_of_getElem? hk, hf w₀⟩
  cases ev with
  | startWrite n e =>
    rcases List.mem_append.mp hw with hw | hw
    · exact Or.inl ⟨w, hw, rfl, rfl, rfl⟩
    · obtain ⟨nd, hnd, rfl⟩ := Option.map_eq_some_iff.mp (Option.mem_toList.mp hw)
      exact Or.inr ⟨rfl, nd, hnd, rfl⟩
  | writeLook k fate =>
    refine Or.inl (hmodify k _ (fun w => ?_) hw)
    split
    · unfold WriteCall.look
      split
      · exact ⟨rfl, rfl, rfl⟩
      · split_ifs
        · split <;> exact ⟨rfl, rfl, rfl⟩
        · exact ⟨rfl, rfl, rfl⟩
        · exact ⟨rfl, rfl, rfl⟩
    · exact ⟨rfl, rfl, rfl⟩
  | writeServe k owner fate =>
    refine Or.inl (hmodify k _ (fun w => ?_) hw)
    split <;> exact ⟨rfl, rfl, rfl⟩
  | writeReport k owner ok =>
    refine Or.inl (hmodify k _ (fun w => ?_) hw)
    split <;> exact ⟨rfl, rfl, rfl⟩
  | _ => exact Or.inl ⟨w, hw, rfl, rfl, rfl⟩

/-- **A call took its owners from the ring its coordinator had when it
started.** -/
theorem Cluster.owners_run {config : AList fun _ : GoString => List GoString} {evs : List Event}
    (hw : w ∈ (Cluster.after env maxMemBytes config evs).writes) :
    ∃ pre, pre ++ [.startWrite w.self w.entry] <+: evs ∧
      ∃ nd ∈ (Cluster.after env maxMemBytes config pre).running w.self,
        w.owners = nd.owners w.entry.entityId := by
  induction evs using List.reverseRecOn generalizing w with
  | nil => cases hw
  | append_singleton evs ev ih =>
    rw [Cluster.after_concat] at hw
    rcases Cluster.writes_step hw with ⟨w₀, hw₀, hself, hentry, howners⟩ | ⟨rfl, hstart⟩
    · obtain ⟨pre, hpre, hstart⟩ := ih hw₀
      rw [hself, hentry, howners]
      exact ⟨pre, hpre.trans (List.prefix_append _ _), hstart⟩
    · exact ⟨evs, List.prefix_rfl, hstart⟩

/-- **What a successful write has reached.** Along every run, whatever
partitions, deaths and restarts it has, a call of `Write` that returned
success has two nodes whose trees have applied the entry, or as many as
its coordinator's ring gave it owners where these are fewer, and one in any
case. -/
theorem write_quorum (env : Env) (maxMemBytes : ℤ)
    (config : AList fun _ : GoString => List GoString) (evs : List Event) (w : WriteCall)
    (hw : w ∈ (Cluster.after env maxMemBytes config evs).writes)
    (hok : w.outcome = some true) :
    (∃ s : Finset GoString, max 1 (min writeQuorum w.owners.length) ≤ s.card ∧ ∀ x ∈ s,
        (Cluster.after env maxMemBytes config evs).Applied x w.entry) ∧
      ∃ pre, pre ++ [.startWrite w.self w.entry] <+: evs ∧
        ∃ nd ∈ (Cluster.after env maxMemBytes config pre).running w.self,
          w.owners = nd.owners w.entry.entityId := by
  have hsound := (Cluster.init env maxMemBytes config).sound_run env maxMemBytes
    (by simp [Cluster.init]) evs w hw
  obtain ⟨s, hcard, hs⟩ := hsound.success hok
  exact ⟨⟨s, hcard, fun x hx => (hs x hx).2⟩, Cluster.owners_run hw⟩

/-! ## A run in which one node is all -/

/-- **A write at a node that owns everything** succeeds on its own tree. -/
theorem Cluster.write_alone {n : GoString} {nd : Node} {e : StatEntry} {io : FlushOutcome}
    {s : Store} (hnd : nd ∈ c.running n) (howners : nd.owners e.entityId = [n])
    (hwrites : c.writes = [])
    (hexit : ((Action.write e io).exit env nd.lsm.store).1 = .returned s false) :
    ∃ w, ((c.step env maxMemBytes (.startWrite n e)).step env maxMemBytes
      (.writeLook 0 (.done io))).writes = [w] ∧ w.entry = e ∧ w.outcome = some true := by
  have hstart : (c.step env maxMemBytes (.startWrite n e)).writes
      = [WriteCall.start n nd.boots e [n]] := by
    simp [Cluster.step, Cluster.stepWrites, Option.mem_def.mp hnd, howners, hwrites]
  have hcoord : (c.step env maxMemBytes (.startWrite n e)).coordinator n nd.boots = some nd := by
    have hrun : (c.step env maxMemBytes (.startWrite n e)).running n = some nd := hnd
    rw [Cluster.coordinator, hrun]
    simp
  -- one owner, the node itself: one acknowledgement is all there can be
  have hlook : (WriteCall.start n nd.boots e [n]).look env nd (.done io)
      = { WriteCall.start n nd.boots e [n] with rest := [], acks := 1 } := by
    simp only [WriteCall.look, WriteCall.start, Fate.action, hexit]
    simp
  refine ⟨(WriteCall.start n nd.boots e [n]).look env nd (.done io), ?_, ?_, ?_⟩
  · have hmodify : ∀ c' : Cluster, c'.writes = [WriteCall.start n nd.boots e [n]] →
        c'.coordinator n nd.boots = some nd →
        (c'.step env maxMemBytes (.writeLook 0 (.done io))).writes
          = [(WriteCall.start n nd.boots e [n]).look env nd (.done io)] := by
      intro c' hw hc
      have hc' : c'.coordinator (WriteCall.start n nd.boots e [n]).self
          (WriteCall.start n nd.boots e [n]).boot = some nd := hc
      simp [Cluster.step, Cluster.stepWrites, hw, hc']
    exact hmodify _ hstart hcoord
  · rw [hlook]
    rfl
  · rw [hlook]
    rfl

/-- The first of three nodes hears nothing for twenty seconds, declares the
other two dead and takes them off its ring. -/
def forsaken : List Event :=
  [.member [97] (.advance 20000000000), .member [97] (.tick [[99], [98]]),
    .member [97] .callback, .member [97] .callback]

/-- Then it is asked to write an entry. -/
def forsakenWrite : List Event :=
  forsaken ++ [.startWrite [97] (sampleEntry 97 1)] ++ [.writeLook 0 (.done .ok)]

/-- The write succeeds. -/
theorem forsakenWrite_success :
    ∃ w, (Cluster.after sampleEnv 0 Gossip.trio forsakenWrite).writes = [w] ∧
      w.entry = sampleEntry 97 1 ∧ w.outcome = some true := by
  have hnode : ((Cluster.after sampleEnv 0 Gossip.trio forsaken).running
      [97]).map (fun nd => (nd.member.pending, nd.member.deaths, nd.peersEnv))
        = some ([], [[99], [98]], [[98], [99]]) := by decide
  have hlsm : ((Cluster.after sampleEnv 0 Gossip.trio forsaken).running
      [97]).map Node.lsm = some (.init sampleEnv 0) := rfl
  obtain ⟨nd, hnd, hfacts⟩ := Option.map_eq_some_iff.mp hnode
  simp only [Prod.mk.injEq] at hfacts
  obtain ⟨hpending, hdeaths, hpeers⟩ := hfacts
  rw [hnd, Option.map_some, Option.some.injEq] at hlsm
  have hplaced := Cluster.placed_run Gossip.trio forsaken (Cluster.mem_running.mp hnd).1
  have howners := hplaced.owners_alone hpending (by rw [hdeaths, hpeers]; decide) [97]
  obtain ⟨s, hexit⟩ : ∃ s, ((Action.write (sampleEntry 97 1) .ok).exit sampleEnv
      nd.lsm.store).1 = .returned s false := by
    rw [hlsm]
    exact ⟨_, rfl⟩
  rw [forsakenWrite, Cluster.after_concat, Cluster.after_concat]
  exact Cluster.write_alone hnd howners rfl hexit

/-- Nothing is applied at the other two. -/
theorem forsakenWrite_applied {x : GoString} {e : StatEntry}
    (h : (Cluster.after sampleEnv 0 Gossip.trio forsakenWrite).Applied x e) :
    x = [97] := by
  by_contra hx
  have hforsaken : ∀ evs, (∀ ev ∈ evs, ∃ mev, ev = Event.member [97] mev) →
      ¬ (Cluster.after sampleEnv 0 Gossip.trio evs).Applied x e := by
    intro evs hevs
    induction evs using List.reverseRecOn with
    | nil =>
      rintro ⟨hist, hhist, he⟩
      obtain ⟨nd, hnd, rfl⟩ := Option.map_eq_some_iff.mp hhist
      obtain ⟨peersEnv, -, rfl⟩ := Option.map_eq_some_iff.mp hnd
      cases he
    | append_singleton evs ev ih =>
      rw [Cluster.after_concat]
      intro happlied
      obtain ⟨mev, rfl⟩ := hevs ev (by simp)
      rcases happlied.of_step with hold | ⟨d, hdeed⟩
      · exact ih (fun ev hev => hevs ev (by simp [hev])) hold
      · rw [Cluster.deed, Option.some.injEq, Prod.mk.injEq] at hdeed
        exact hx hdeed.1.symm
  rw [forsakenWrite, Cluster.after_concat, Cluster.after_concat] at h
  rcases h.of_step with hstart | ⟨d, hdeed⟩
  · rcases hstart.of_step with hold | ⟨d, hdeed⟩
    · exact hforsaken forsaken (by simp [forsaken]) hold
    · cases hdeed
  · obtain ⟨w, hw, rfl⟩ := Cluster.deed_writeLook hdeed
    rcases Cluster.writes_step (List.mem_of_getElem? hw) with ⟨w₀, hw₀, -⟩ | ⟨hev, -⟩
    · cases hw₀
    · rw [Event.startWrite.injEq] at hev
      exact hx hev.1.symm

/-- **Two nodes are not always reached**: the write returned success, and
no tree but its coordinator's has the entry. -/
theorem not_write_quorum : ¬ ∀ (env : Env) (maxMemBytes : ℤ)
    (config : AList fun _ : GoString => List GoString) (evs : List Event) (w : WriteCall),
    config.keys.length = 3 →
    w ∈ (Cluster.after env maxMemBytes config evs).writes →
    w.outcome = some true → ∃ s : Finset GoString, 2 ≤ s.card ∧ ∀ x ∈ s,
      (Cluster.after env maxMemBytes config evs).Applied x w.entry := by
  intro h
  obtain ⟨w, hwrites, -, hok⟩ := forsakenWrite_success
  obtain ⟨s, hcard, hs⟩ := h sampleEnv 0 Gossip.trio forsakenWrite w (by decide)
    (by rw [hwrites]; simp) hok
  obtain ⟨x, hx, hne⟩ := Finset.exists_mem_ne (Nat.lt_of_succ_le hcard) [97]
  exact hne (forsakenWrite_applied (hs x hx))

/-- The call that a node and one replica have acknowledged. -/
theorem pairEvents_success :
    ∃ w ∈ (Cluster.after sampleEnv 0 Gossip.trio pairEvents).writes,
      w.outcome = some true ∧ w.owners.length = 3 ∧ w.entry = sampleEntry 97 1 := by
  obtain ⟨l, hl, -, hafter⟩ := trio_pairEvents
  have hdone : ∀ l ∈ Gossip.trio.keys.permutations',
      ((trioWriting l).run sampleEnv 0 pairWrite).writes.map
          (fun w => (w.outcome, w.owners.length, w.entry))
        = [(some true, 3, sampleEntry 97 1)] := by decide
  obtain ⟨w, hw, hfacts⟩ := List.map_eq_singleton_iff.mp (hdone l hl)
  simp only [Prod.mk.injEq] at hfacts
  rw [hafter, hw]
  exact ⟨w, List.mem_singleton_self w, hfacts⟩

/-- What the two runs have to show for their success: one node of one
owner, and two of three. -/
theorem write_quorum_forsaken :
    (∃ s : Finset GoString, 1 ≤ s.card ∧ ∀ x ∈ s,
      (Cluster.after sampleEnv 0 Gossip.trio forsakenWrite).Applied x (sampleEntry 97 1)) ∧
    ∃ s : Finset GoString, 2 ≤ s.card ∧ ∀ x ∈ s,
      (Cluster.after sampleEnv 0 Gossip.trio pairEvents).Applied x (sampleEntry 97 1) := by
  constructor
  · obtain ⟨w, hwrites, hentry, hok⟩ := forsakenWrite_success
    have hw : w ∈ (Cluster.after sampleEnv 0 Gossip.trio forsakenWrite).writes := by
      rw [hwrites]
      exact List.mem_singleton_self w
    obtain ⟨⟨s, hcard, hs⟩, -⟩ := write_quorum _ _ _ _ w hw hok
    exact ⟨s, (le_max_left _ _).trans hcard, hentry ▸ hs⟩
  · obtain ⟨w, hw, hok, hthree, hentry⟩ := pairEvents_success
    obtain ⟨⟨s, hcard, hs⟩, -⟩ := write_quorum _ _ _ _ w hw hok
    rw [hthree] at hcard
    exact ⟨s, (le_max_right _ _).trans hcard, hentry ▸ hs⟩

end Metastore

end TftAnalytics

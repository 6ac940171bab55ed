import TftAnalytics.Processor.Accounting
import TftAnalytics.Processor.Supersession
/-!
# Pipeline — the flushes of a processor

In every run the entries on their way are those of a flush, each flush
counts its messages, and no counter is negative.
-/

namespace TftAnalytics

namespace Processor

open Metastore (counter)

namespace Deployment

variable {cfg : Config} {feed : Feed} {σ σ' : Deployment}

/-- **What holds of the flushes**, and of the one under way. -/
structure Windowed (cfg : Config) (σ : Deployment) : Prop where
  aggregator : σ.memory.aggregator
    = StatAggregator.new.processBatch cfg.championCost (σ.aggregated.map (·.event))
  counts : ∀ f ∈ σ.flushes, Counts cfg f
  offering : ∀ clock entries, σ.memory.main = .writing clock entries →
    ∃ f ∈ σ.flushes, f.clock = clock ∧ ∀ s ∈ entries, s ∈ f.stats

theorem Windowed.moves (h : σ.Windowed cfg) (hmoves : Moves cfg feed σ σ') : σ'.Windowed cfg := by
  cases hmoves with
  | idle => exact h
  | load | receive | reconnect | put | save | goOn => exact ⟨h.aggregator, h.counts, h.offering⟩
  | drain => exact ⟨h.aggregator, h.counts, fun _ _ hw => by cases hw⟩
  | popReady hmain now =>
    refine ⟨?_, h.counts, fun _ _ hw => by cases hw⟩
    show σ.memory.aggregator.processBatch cfg.championCost _ = _
    rw [h.aggregator]
    unfold StatAggregator.processBatch
    rw [List.map_append, List.foldl_append]
  | proceed main lastFlush hmain hmain' =>
    exact ⟨h.aggregator, h.counts, fun clock entries hw => absurd hw (hmain' clock entries)⟩
  | flush hmain hfits =>
    refine ⟨rfl, fun f hf => ?_, fun clock entries hw => ?_⟩
    · rcases List.mem_append.mp hf with hf | hf
      · exact h.counts f hf
      · obtain rfl := List.mem_singleton.mp hf
        show σ.memory.aggregator.flush.2 = _
        rw [h.aggregator]
    · obtain ⟨rfl, rfl⟩ := Main.writing.inj hw
      exact ⟨_, List.mem_append_right _ (List.mem_singleton_self _), rfl, fun _ hs => hs⟩
  | ended => exact ⟨h.aggregator, h.counts, fun _ _ hw => by cases hw⟩
  | write clock entry entries hmain outcome =>
    refine ⟨h.aggregator, h.counts, fun clock' entries' hw => ?_⟩
    obtain ⟨rfl, rfl⟩ := Main.writing.inj hw
    obtain ⟨f, hf, hclock, hstats⟩ := h.offering _ _ hmain
    exact ⟨f, hf, hclock, fun s hs => hstats s (List.mem_cons_of_mem _ hs)⟩
  | finishFlush => exact ⟨h.aggregator, h.counts, fun _ _ hw => by cases hw⟩
  | restart => exact ⟨rfl, h.counts, fun _ _ hw => by cases hw⟩

theorem windowed_run (cfg : Config) (feed : Feed) (found : Offsets) (start : ℚ)
    (actions : List Action) : (run cfg feed found start actions).Windowed cfg :=
  run_induction ⟨rfl, (fun _ hf => by cases hf), fun _ _ hw => by cases hw⟩
    (fun _ _ h hmoves => h.moves hmoves) actions

theorem ordered_run (cfg : Config) (feed : Feed) (found : Offsets) (start : ℚ)
    (actions : List Action) : (run cfg feed found start actions).Ordered cfg :=
  run_induction ⟨(fun _ hf => by cases hf), (fun _ hf => by cases hf), List.Pairwise.nil⟩
    (fun _ _ h hmoves => h.moves hmoves) actions

/-- No counter is negative, neither of the merged clock nor of a flush. -/
structure Counting (σ : Deployment) : Prop where
  merged : ∀ node, 0 ≤ counter σ.memory.mergedClock node
  flushes : ∀ f ∈ σ.flushes, ∀ node, 0 ≤ counter f.clock.clocks node

theorem Counting.moves (h : σ.Counting) (hmoves : Moves cfg feed σ σ') : σ'.Counting := by
  cases hmoves with
  | drain drained hmain m incoming hincoming now =>
    refine ⟨fun node => ?_, h.flushes⟩
    exact Int64.le_trans (h.merged node) (counter_le_mergeClock σ.memory.mergedClock m.event node)
  | flush hmain hfits =>
    refine ⟨h.merged, fun f hf node => ?_⟩
    rcases List.mem_append.mp hf with hf | hf
    · exact h.flushes f hf node
    · obtain rfl := List.mem_singleton.mp hf
      show 0 ≤ counter (σ.flushClock cfg).clocks node
      rw [flushClock, counter_clockOfDict]
      by_cases hnode : node = cfg.nodeId
      · subst hnode
        rw [counter_insert_self, Int64.le_iff_toInt_le, Int64.toInt_ofNat_of_lt hfits]
        exact Int.natCast_nonneg _
      · rw [counter_insert_of_ne _ hnode]
        exact h.merged node
  | restart now => exact ⟨fun _ => Int64.le_refl _, h.flushes⟩
  | _ => exact ⟨h.merged, h.flushes⟩

theorem counting_run (cfg : Config) (feed : Feed) (found : Offsets) (start : ℚ)
    (actions : List Action) : (run cfg feed found start actions).Counting :=
  run_induction ⟨fun _ => Int64.le_refl _, fun _ hf => by cases hf⟩
    (fun _ _ h hmoves => h.moves hmoves) actions

/-- No flush is forgotten. -/
theorem Moves.flushes_subset (hmoves : Moves cfg feed σ σ') : σ.flushes ⊆ σ'.flushes := by
  cases hmoves with
  | flush => exact List.subset_append_left _ _
  | _ => exact List.Subset.refl _

/-- A step that is no write adds none. -/
theorem writes_step (cfg : Config) (feed : Feed) (σ : Deployment) {a : Action}
    (ha : ∀ outcome, a ≠ .write outcome) : (σ.step cfg feed a).writes = σ.writes := by
  have hthread : ∀ i partition stage, (σ.stepThread feed i partition stage a).writes = σ.writes := by
    intro i partition stage
    unfold stepThread
    repeat' split
    all_goals rfl
  have hflush : (σ.flush cfg).writes = σ.writes := by
    unfold Deployment.flush
    simp only
    split_ifs <;> rfl
  have hmain : ∀ main, (σ.stepMain cfg main a).writes = σ.writes := by
    intro main
    unfold stepMain
    repeat' split
    all_goals first | rfl | exact hflush | exact absurd rfl (ha _)
  unfold step
  split
  · rfl
  · split
    · rfl
    · split
      · split
        · exact hthread _ _ _
        · rfl
      · exact hmain _

/-- A write adds itself. -/
theorem writes_step_write (cfg : Config) (feed : Feed) {clock : Metastore.VectorClock} {s : Stat}
    {entries : List Stat} (hmain : σ.memory.main = .writing clock (s :: entries))
    (outcome : WriteOutcome) :
    (σ.step cfg feed (.write outcome)).writes = σ.writes ++ [(clock, s, outcome)] := by
  simp only [step, hmain, Action.thread, stepMain]

end Deployment

end Processor

end TftAnalytics

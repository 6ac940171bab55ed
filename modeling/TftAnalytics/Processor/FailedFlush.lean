import TftAnalytics.Processor.Helpers.Processor
/-!
# Processor — a flush with failing writes

The aggregate is emptied before its entries are written, and an entry that
the store refuses, or whose call raises, is not put back: the flush goes on
with the next one. Every entity is offered to the store once, with all that
was accumulated of it, whatever became of the others; what is not accepted
then is in no later flush.
-/

namespace TftAnalytics

namespace Processor

namespace Deployment

variable {cfg : Config} {σ : Deployment}

/-- `_flush` to its end, where the writes come to these outcomes in turn. -/
def flushThrough (cfg : Config) (σ : Deployment) (outcome : ℕ → WriteOutcome) (now : ℚ) :
    Deployment :=
  if σ.memory.aggregator.matchesSeen = 0 then σ
  else
    let σ := σ.flush cfg
    let n := match σ.memory.main with
      | .writing _ entries => entries.length
      | _ => 0
    let calls := (List.range n).map (fun i => Action.write (outcome i)) ++ [.finishFlush now]
    calls.foldl (fun σ a => σ.stepMain cfg σ.memory.main a) σ

/-- The placements accumulated under a key. -/
def placements (agg : StatAggregator) (key : StatKey) : List Int32 :=
  (agg.buffers.lookup key).getD []

/-- **What not to lose means**: the entities whose write did not succeed
keep their placements. -/
def Retains (before after : StatAggregator) (stats : List Stat) (outcome : ℕ → WriteOutcome) :
    Prop :=
  ∀ i s, stats[i]? = some s → outcome i ≠ .written →
    ∀ p ∈ before.buffers, p.1 = s.key → p.2.Sublist (placements after s.key)

/-- **The writes of a flush**: each is made, whatever became of those
before, and the aggregate stays as it is. -/
theorem foldl_write (cfg : Config) {clock : Metastore.VectorClock} (outcome : ℕ → WriteOutcome)
    (entries : List Stat) (start : ℕ) (hmain : σ.memory.main = .writing clock entries) :
    ((List.range' start entries.length).map (fun i => Action.write (outcome i))).foldl
        (fun σ a => σ.stepMain cfg σ.memory.main a) σ
      = { σ.proceed (.writing clock []) with
          writes := σ.writes ++ entries.mapIdx fun i s => (clock, s, outcome (start + i)) } := by
  induction entries generalizing σ start with
  | nil =>
    obtain ⟨memory⟩ := σ
    obtain ⟨threads, main⟩ := memory
    obtain rfl : main = .writing clock [] := hmain
    simp [proceed]
  | cons s entries ih =>
    have hstep : σ.stepMain cfg σ.memory.main (.write (outcome start))
        = { σ.proceed (.writing clock entries) with
            writes := σ.writes ++ [(clock, s, outcome start)] } := by
      rw [hmain]
      rfl
    rw [List.length_cons, List.range'_succ, List.map_cons, List.foldl_cons, hstep,
      ih (start + 1) rfl, List.mapIdx_cons]
    simp only [proceed, List.append_assoc, List.singleton_append, Nat.add_zero]
    have hshift : (fun i (s : Stat) => (clock, s, outcome (start + 1 + i)))
        = fun i s => (clock, s, outcome (start + (i + 1))) := by
      funext i s
      rw [Nat.add_right_comm, Nat.add_assoc]
    rw [hshift]

/-- A flush that counts something, to its end. -/
theorem flushThrough_eq (cfg : Config) (outcome : ℕ → WriteOutcome) (now : ℚ)
    (hseen : σ.memory.aggregator.matchesSeen ≠ 0) (hseq : σ.memory.flushSeq + 1 < 2 ^ 63) :
    (σ.flushThrough cfg outcome now).writes = σ.writes ++ σ.memory.aggregator.flush.2.mapIdx
        (fun i s => (flushClock cfg σ, s, outcome i)) ∧
      (σ.flushThrough cfg outcome now).memory.aggregator = .new := by
  have hflush : (σ.flush cfg).memory.main
      = .writing (flushClock cfg σ) σ.memory.aggregator.flush.2 := by
    simp only [flush, if_pos hseq]
    rfl
  have hwrites : (σ.flush cfg).writes = σ.writes := by
    simp only [flush, if_pos hseq]
  have haggregator : (σ.flush cfg).memory.aggregator = .new := by
    simp only [flush, if_pos hseq]
    rfl
  have hfold := foldl_write cfg outcome _ 0 hflush
  simp only [flushThrough, if_neg hseen, hflush, List.foldl_append, List.range_eq_range', hfold,
    Nat.zero_add]
  exact ⟨congrArg (· ++ _) hwrites, haggregator⟩

/-- An entry of a flush has the key of a buffer that is not empty. -/
theorem exists_buffer {agg : StatAggregator} {s : Stat} (h : s ∈ agg.flush.2) :
    ∃ p ∈ agg.buffers, p.1 = s.key ∧ p.2 ≠ [] ∧ s.sampleSize = p.2.length := by
  obtain ⟨p, hp, hstat⟩ := List.mem_filterMap.mp h
  simp only [StatAggregator.stat] at hstat
  split_ifs at hstat with hempty <;>
    · obtain rfl := Option.some.inj hstat
      exact ⟨p, hp, rfl, fun hnil => hempty (List.length_eq_zero_iff.mpr hnil), rfl⟩

/-- An empty aggregate keeps the entities of a flush just when every write
succeeded. -/
theorem retains_new_iff (agg : StatAggregator) (outcome : ℕ → WriteOutcome) :
    Retains agg .new agg.flush.2 outcome ↔ ∀ i < agg.flush.2.length, outcome i = .written := by
  constructor
  · intro hretains i hi
    by_contra hfailed
    obtain ⟨p, hp, hkey, hne, -⟩ := exists_buffer (List.getElem_mem hi)
    have hsublist := hretains i _ (List.getElem?_eq_getElem hi) hfailed p hp hkey
    exact hne (List.sublist_nil.mp hsublist)
  · intro hwritten i s hs hfailed
    exact absurd (hwritten i (List.getElem?_eq_some_iff.mp hs).1) hfailed

/-- **A failed write loses its entity, and only that**: every entity with
placements is offered to the store once, in turn and whatever became of the
others, the aggregate is left empty, and so the placements that a flush
was to write are kept just when every write succeeded. A flush that counts
nothing, or whose number the clock cannot hold, writes nothing and leaves
the aggregate as it was. -/
theorem flush_offers_once (cfg : Config) (σ : Deployment) (outcome : ℕ → WriteOutcome) (now : ℚ) :
    let agg := σ.memory.aggregator
    let σ' := σ.flushThrough cfg outcome now
    if agg.matchesSeen ≠ 0 ∧ σ.memory.flushSeq + 1 < 2 ^ 63 then
      σ'.writes = σ.writes ++ agg.flush.2.mapIdx (fun i s => (flushClock cfg σ, s, outcome i)) ∧
        σ'.memory.aggregator = .new ∧
        (Retains agg σ'.memory.aggregator agg.flush.2 outcome ↔
          ∀ i < agg.flush.2.length, outcome i = .written)
    else σ'.writes = σ.writes ∧ σ'.memory.aggregator = agg := by
  intro agg σ'
  split_ifs with hcounts
  · obtain ⟨hwrites, hnew⟩ := flushThrough_eq cfg outcome now hcounts.1 hcounts.2
    refine ⟨hwrites, hnew, ?_⟩
    rw [show σ'.memory.aggregator = .new from hnew]
    exact retains_new_iff agg outcome
  · show (σ.flushThrough cfg outcome now).writes = σ.writes ∧
      (σ.flushThrough cfg outcome now).memory.aggregator = σ.memory.aggregator
    by_cases hseen : σ.memory.aggregator.matchesSeen = 0
    · rw [flushThrough, if_pos hseen]
      exact ⟨rfl, rfl⟩
    · have hseq : ¬ σ.memory.flushSeq + 1 < 2 ^ 63 := fun h => hcounts ⟨hseen, h⟩
      simp only [flushThrough, if_neg hseen, flush, if_neg hseq]
      exact ⟨rfl, rfl⟩

/-- A processor that has aggregated one board. -/
def oneBoard : Deployment :=
  let agg : StatAggregator :=
    { buffers := [(⟨ascii "TFT_Ahri", .champion, ⟨ascii "14.3", ascii "GOLD", ascii "NA"⟩⟩, [1])]
      totals := [(⟨ascii "14.3", ascii "GOLD", ascii "NA"⟩, 1)]
      matchesSeen := 1 }
  let σ := init (fun _ => none) 0
  { σ with memory := { σ.memory with main := .maybeFlush, aggregator := agg } }

/-- A write that raises, and nothing is left of the entity. -/
theorem raised_write_loses : ¬ ∀ (cfg : Config) (σ : Deployment) (outcome : ℕ → WriteOutcome)
    (now : ℚ), Retains σ.memory.aggregator (σ.flushThrough cfg outcome now).memory.aggregator
      σ.memory.aggregator.flush.2 outcome := by
  intro hall
  have hretains := hall oneConfig oneBoard (fun _ => .raised) 60
  have hseen : oneBoard.memory.aggregator.matchesSeen ≠ 0 := by decide
  rw [(flushThrough_eq oneConfig (fun _ => .raised) 60 hseen (by decide)).2,
    retains_new_iff] at hretains
  exact absurd (hretains 0 (by decide)) (by simp)

end Deployment

end Processor

end TftAnalytics

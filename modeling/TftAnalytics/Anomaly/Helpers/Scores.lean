import TftAnalytics.Anomaly.Model.Service
import TftAnalytics.Common.Keyed
import Mathlib.Data.List.Perm.Lattice
/-!
# Anomaly — the first pass as machines run key by key

The entries of an entity and tier with enough samples go to the history of
that key, which answers them, whatever the scan returns between them. The
tables of tiers are sets: what they count does not show the order either.
-/

namespace TftAnalytics

namespace Anomaly

variable {K : Type} [Field K] [LinearOrder K] {sqrt : K → K}

/-! ## The detector -/

/-- What `check` answers to a rate with enough samples. -/
def verdict (sqrt : K → K) (hist : List K) (x : K) : Bool × K :=
  if hist.length < minHistory then (false, 0)
  else if std sqrt hist = 0 then (false, 0)
  else (decide (zThreshold < (x - mean hist) / std sqrt hist), (x - mean hist) / std sqrt hist)

theorem check_of_lt (d : AnomalyDetector K) (entityId tier : GoString) (x : K) {n : ℤ}
    (h : n < minSampleSize) : d.check sqrt entityId tier x n = (d, false, 0) :=
  if_pos h

theorem check_of_le (d : AnomalyDetector K) (entityId tier : GoString) (x : K) {n : ℤ}
    (h : minSampleSize ≤ n) : d.check sqrt entityId tier x n
      = (d.record (entityId, tier) x, verdict sqrt (d.observed (entityId, tier)) x) := by
  unfold AnomalyDetector.check verdict
  rw [if_neg (not_lt.mpr h)]
  dsimp only
  split_ifs <;> rfl

omit [Field K] [LinearOrder K] in
/-- A record changes one history. -/
theorem observed_record (d : AnomalyDetector K) (key k : GoString × GoString) (x : K) :
    (d.record key x).observed k
      = if key = k then appendBounded d.window x (d.observed k) else d.observed k :=
  held_upsert ..

/-! ## The entries that are scored -/

/-- The entries with enough samples, under their keys. -/
def scored (entries : List (Entry K)) : List ((GoString × GoString) × Entry K) :=
  (entries.filter fun e => minSampleSize ≤ e.sampleSize).map fun e => ((e.entityId, e.tier), e)

/-- The history of one key as a machine, which reports the spikes. -/
def scorer (sqrt : K → K) (window : ℕ) : Machine (List K) (Entry K) (Entry K × K) where
  next hist e := appendBounded window e.winRate hist
  report hist e :=
    if (verdict sqrt hist e.winRate).1 then some (e, (verdict sqrt hist e.winRate).2) else none

/-- The tiers of pairs of an entity and a tier. -/
def tiersOf (pairs : List (GoString × GoString)) : List (GoString × List GoString) :=
  gather [] (fun tiers tier => tiers.insert tier) pairs []

theorem tiersOf_append (ps qs : List (GoString × GoString)) : tiersOf (ps ++ qs)
    = qs.foldl (fun tiers p => upsert [] (List.insert p.2) p.1 tiers) (tiersOf ps) :=
  gather_append ..

theorem score_of_lt (s : Scores K) {e : Entry K} (h : e.sampleSize < minSampleSize) :
    score sqrt s e = s := by
  unfold score
  rw [check_of_lt _ _ _ _ h, if_neg (not_le.mpr h)]
  rfl

/-- What one scored entry does to the first pass. -/
theorem score_of_le (s : Scores K) {e : Entry K} (h : minSampleSize ≤ e.sampleSize) :
    let spike := ((scorer sqrt s.detector.window).report
      (s.detector.observed (e.entityId, e.tier)) e).toList
    score sqrt s e =
      { detector := s.detector.record (e.entityId, e.tier) e.winRate
        spikes := s.spikes ++ spike
        tiersWithData := upsert [] (List.insert e.tier) e.entityId s.tiersWithData
        tiersSpiking := (spike.map fun p => (p.1.entityId, p.1.tier)).foldl
          (fun tiers p => upsert [] (List.insert p.2) p.1 tiers) s.tiersSpiking } := by
  unfold score scorer
  rw [check_of_le _ _ _ _ h, if_pos h]
  dsimp only
  split_ifs
  · rfl
  · simp

/-- **The first pass** over some entries. -/
structure Passed (sqrt : K → K) (d : AnomalyDetector K) (entries : List (Entry K))
    (s : Scores K) : Prop where
  window : s.detector.window = d.window
  observed : s.detector.observed = (scorer sqrt d.window).keyedRun d.observed (scored entries)
  spikes : s.spikes
    = ((scorer sqrt d.window).keyedReports d.observed (scored entries)).map Prod.snd
  tiersWithData : s.tiersWithData = tiersOf ((scored entries).map Prod.fst)
  tiersSpiking : s.tiersSpiking = tiersOf (s.spikes.map fun p => (p.1.entityId, p.1.tier))

omit [Field K] [LinearOrder K] in
theorem scored_append_singleton (entries : List (Entry K)) (e : Entry K) :
    scored (entries ++ [e]) = scored entries
      ++ if minSampleSize ≤ e.sampleSize then [((e.entityId, e.tier), e)] else [] := by
  unfold scored
  rw [List.filter_append, List.map_append, List.filter_singleton]
  by_cases h : minSampleSize ≤ e.sampleSize <;> simp [h]

theorem Passed.score {d : AnomalyDetector K} {entries : List (Entry K)} {s : Scores K}
    (hs : Passed sqrt d entries s) (e : Entry K) :
    Passed sqrt d (entries ++ [e]) (score sqrt s e) := by
  by_cases h : minSampleSize ≤ e.sampleSize
  · have hscored : scored (entries ++ [e]) = scored entries ++ [((e.entityId, e.tier), e)] := by
      rw [scored_append_singleton, if_pos h]
    rw [score_of_le s h, hs.window, hs.observed]
    refine ⟨hs.window, ?_, ?_, ?_, ?_⟩
    · rw [hscored]
      funext key
      rw [observed_record, Machine.keyedRun, List.foldl_append, List.foldl_cons, List.foldl_nil,
        Machine.keyedNext_apply, hs.observed, hs.window]
      rfl
    · rw [hscored, Machine.keyedReports_append, List.map_append, hs.spikes]
      simp [Machine.keyedReports]
    · rw [hscored, List.map_append, tiersOf_append, hs.tiersWithData]
      rfl
    · rw [List.map_append, tiersOf_append, ← hs.tiersSpiking]
  · have hscored : scored (entries ++ [e]) = scored entries := by
      rw [scored_append_singleton, if_neg h, List.append_nil]
    rw [score_of_lt s (not_le.mp h)]
    exact ⟨hs.window, hscored ▸ hs.observed, hscored ▸ hs.spikes, hscored ▸ hs.tiersWithData,
      hs.tiersSpiking⟩

theorem passed_firstPass (sqrt : K → K) (d : AnomalyDetector K) (entries : List (Entry K)) :
    Passed sqrt d entries (firstPass sqrt d entries) := by
  induction entries using List.reverseRecOn with
  | nil => exact ⟨rfl, rfl, rfl, rfl, rfl⟩
  | append_singleton entries e ih =>
    unfold firstPass at ih ⊢
    rw [List.foldl_append]
    exact ih.score e

/-! ## The tables -/

/-- A set that is filled one by one is as large as the list without
repetitions. -/
theorem length_foldl_insert (xs : List GoString) :
    (xs.foldl (fun l x => l.insert x) []).length = xs.dedup.length := by
  have hset : (xs.foldl (fun l x => l.insert x) []).Nodup ∧
      ∀ y, y ∈ xs.foldl (fun l x => l.insert x) [] ↔ y ∈ xs := by
    induction xs using List.reverseRecOn with
    | nil => exact ⟨List.nodup_nil, fun _ => Iff.rfl⟩
    | append_singleton xs x ih =>
      rw [List.foldl_append, List.foldl_cons, List.foldl_nil]
      refine ⟨ih.1.insert, fun y => ?_⟩
      rw [List.mem_insert_iff, ih.2, List.mem_append, List.mem_singleton, or_comm]
  refine ((List.perm_ext_iff_of_nodup hset.1 xs.nodup_dedup).mpr fun y => ?_).length_eq
  rw [hset.2, List.mem_dedup]

theorem tierCount_tiersOf (pairs : List (GoString × GoString)) (entityId : GoString) :
    tierCount (tiersOf pairs) entityId = (valuesAt pairs entityId).dedup.length := by
  unfold tierCount tiersOf
  rw [held_gather, length_foldl_insert]

/-- **The counts do not show an order.** -/
theorem tierCount_tiersOf_perm {ps qs : List (GoString × GoString)} (h : ps.Perm qs)
    (entityId : GoString) : tierCount (tiersOf ps) entityId = tierCount (tiersOf qs) entityId := by
  rw [tierCount_tiersOf, tierCount_tiersOf]
  exact (valuesAt_perm h entityId).dedup.length_eq

end Anomaly

end TftAnalytics

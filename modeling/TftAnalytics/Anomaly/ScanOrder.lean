import TftAnalytics.Anomaly.Helpers.Scores
import Mathlib.Analysis.Real.Sqrt
/-!
# Anomaly — the order of a scan

A history belongs to an entity and a tier, and takes the entries of all
regions and patches of that key one after another. How the entries of
different keys fall does not show in the alerts; the order under one key
does, since each entry is scored against the ones before it.
-/

namespace TftAnalytics

namespace Anomaly

variable {K : Type}

/-- The entries that are scored under a key, in the order of the scan. -/
def checked (entries : List (Entry K)) (entityId tier : GoString) : List (Entry K) :=
  entries.filter fun e => minSampleSize ≤ e.sampleSize ∧ e.entityId = entityId ∧ e.tier = tier

/-- An alert without its time. -/
def Alert.undated (a : Alert K) : Alert K := { a with timestamp := 0 }

/-- **The same outcome**: the same alerts, whenever they are published, and
detectors that go on from the same histories. -/
def SameOutcome (r r' : AnomalyDetector K × List (Alert K)) : Prop :=
  (r.2.map Alert.undated).Perm (r'.2.map Alert.undated) ∧ ∀ key, r.1.observed key = r'.1.observed key

theorem valuesAt_scored (entries : List (Entry K)) (key : GoString × GoString) :
    valuesAt (scored entries) key = checked entries key.1 key.2 := by
  unfold scored checked
  rw [valuesAt_map_key (fun e : Entry K => (e.entityId, e.tier)), List.filter_filter]
  refine List.filter_congr fun e _ => ?_
  simp [Prod.ext_iff, and_comm]

theorem perm_scored {es es' : List (Entry K)}
    (h : ∀ entityId tier, checked es entityId tier = checked es' entityId tier) :
    (scored es).Perm (scored es') := by
  refine perm_of_valuesAt fun key => ?_
  rw [valuesAt_scored, valuesAt_scored, h]

variable [Field K] [LinearOrder K] [FloorRing K] {sqrt : K → K}

theorem undated_alerts (s : Scores K) (now : ℕ → ℤ) (spikes : List (Entry K × K)) :
    (spikes.mapIdx fun i p => alert s p.1 p.2 (now i)).map Alert.undated
      = spikes.map fun p => alert s p.1 p.2 0 := by
  refine List.ext_getElem (by simp) fun i hi hi' => ?_
  simp only [List.getElem_map, List.getElem_mapIdx]
  rfl

/-- **Alerts follow the spikes.** Two first passes with the same spikes,
in whatever order, and the same tags publish the same alerts. -/
theorem alerts_perm {s s' : Scores K} (now now' : ℕ → ℤ) (hspikes : s.spikes.Perm s'.spikes)
    (hclassify : ∀ entityId, classify s entityId = classify s' entityId) :
    ((s.spikes.mapIdx fun i p => alert s p.1 p.2 (now i)).map Alert.undated).Perm
      ((s'.spikes.mapIdx fun i p => alert s' p.1 p.2 (now' i)).map Alert.undated) := by
  have halert : (fun p : Entry K × K => alert s p.1 p.2 0) = fun p => alert s' p.1 p.2 0 := by
    funext p
    unfold alert
    rw [hclassify]
  rw [undated_alerts, undated_alerts, halert]
  exact hspikes.map _

/-- **The interleaving of the keys does not matter**: scans with the same
entries to be scored under every key, in the same order, have the same
outcome. -/
theorem sameOutcome_of_checked (detector : AnomalyDetector K) (now now' : ℕ → ℤ)
    {scan scan' : GoString → List (Entry K)}
    (h : ∀ entityId tier,
      checked (scanAll scan) entityId tier = checked (scanAll scan') entityId tier) :
    SameOutcome (runOnce sqrt now scan detector) (runOnce sqrt now' scan' detector) := by
  have hp := passed_firstPass sqrt detector (scanAll scan)
  have hp' := passed_firstPass sqrt detector (scanAll scan')
  have hkeys : ∀ key, valuesAt (scored (scanAll scan)) key
      = valuesAt (scored (scanAll scan')) key := by
    intro key
    rw [valuesAt_scored, valuesAt_scored, h]
  have hspikes : (firstPass sqrt detector (scanAll scan)).spikes.Perm
      (firstPass sqrt detector (scanAll scan')).spikes := by
    rw [hp.spikes, hp'.spikes]
    exact ((scorer sqrt detector.window).keyedReports_perm _ hkeys).map _
  refine ⟨alerts_perm now now' hspikes fun entityId => ?_, fun key => ?_⟩
  · -- the counts see the entries and the spikes as sets
    unfold classify
    rw [hp.tiersWithData, hp'.tiersWithData, hp.tiersSpiking, hp'.tiersSpiking,
      tierCount_tiersOf_perm ((perm_scored h).map _),
      tierCount_tiersOf_perm (hspikes.map _)]
  · have hobserved := congrFun hp.observed key
    have hobserved' := congrFun hp'.observed key
    rw [Machine.keyedRun_apply] at hobserved hobserved'
    rw [hkeys, ← hobserved'] at hobserved
    exact hobserved

omit [Field K] [LinearOrder K] [FloorRing K] in
/-- Of a single entry there is one order. -/
theorem checked_of_perm {es es' : List (Entry K)} (h : es.Perm es') {entityId tier : GoString}
    (hone : (checked es entityId tier).length ≤ 1) :
    checked es entityId tier = checked es' entityId tier := by
  have hperm : (checked es entityId tier).Perm (checked es' entityId tier) := h.filter _
  rcases hl : checked es entityId tier with _ | ⟨e, _ | ⟨e', l⟩⟩
  · rw [hl] at hperm
    exact (List.nil_perm.mp hperm).symm
  · rw [hl] at hperm
    exact List.singleton_perm.mp hperm
  · rw [hl] at hone
    simp only [List.length_cons] at hone
    omega

/-- **The order of a scan.** Whatever the detector has observed, two scans
have the same outcome if under every entity and tier they have the same
entries to be scored in the same order; in particular, if they differ in
their order alone and every entity and tier has one such entry at most. -/
theorem outcome_keeps_key_order (sqrt : K → K) (detector : AnomalyDetector K) (now now' : ℕ → ℤ)
    (scan scan' : GoString → List (Entry K)) :
    ((∀ entityId tier,
        checked (scanAll scan) entityId tier = checked (scanAll scan') entityId tier) →
      SameOutcome (runOnce sqrt now scan detector) (runOnce sqrt now' scan' detector)) ∧
    ((∀ etype, (scan etype).Perm (scan' etype)) →
      (∀ entityId tier, (checked (scanAll scan) entityId tier).length ≤ 1) →
      SameOutcome (runOnce sqrt now scan detector) (runOnce sqrt now' scan' detector)) := by
  refine ⟨sameOutcome_of_checked detector now now', fun hperm hone => ?_⟩
  have hall : (scanAll scan).Perm (scanAll scan') := List.Perm.flatMap_left _ fun e _ => hperm e
  exact sameOutcome_of_checked detector now now' fun entityId tier =>
    checked_of_perm hall (hone entityId tier)

/-! ## Two regions of one key -/

/-- Win rates of one champion and tier, before a scan. -/
def fiveRates : List K := [1 / 5, 1 / 5, 3 / 5, 3 / 5, 3 / 5]

/-- An entry of that champion in one region. -/
def regional (region : GoString) (winRate : K) : Entry K :=
  { entityId := ascii "TFT17_Corki", entityType := ascii "champion", patch := ascii "17.3", region
    tier := ascii "GOLD", winRate, avgPlacement := 4, sampleSize := 250 }

/-- The detector that holds them. -/
def fiveSeen : AnomalyDetector K :=
  { window := 48, history := [((ascii "TFT17_Corki", ascii "GOLD"), fiveRates)] }

/-- A scan that returns some champions. -/
def champions (entries : List (Entry K)) (etype : GoString) : List (Entry K) :=
  if etype = ascii "champion" then entries else []

omit [LinearOrder K] [FloorRing K] in
theorem scored_champions (r r' : GoString) (x y : K) :
    scored (scanAll (champions [regional r x, regional r' y]))
      = [((ascii "TFT17_Corki", ascii "GOLD"), regional r x),
        ((ascii "TFT17_Corki", ascii "GOLD"), regional r' y)] := rfl

omit [FloorRing K] in
/-- The second entry alone has a history to be scored against. -/
theorem spikes_champions (r r' : GoString) (x y : K) :
    (firstPass sqrt fiveSeen (scanAll (champions [regional r x, regional r' y]))).spikes
      = ((scorer sqrt 48).report (fiveRates ++ [x]) (regional r' y)).toList := by
  have hseen : (fiveSeen : AnomalyDetector K).observed (ascii "TFT17_Corki", ascii "GOLD")
      = fiveRates := rfl
  have hnext : (scorer sqrt 48).next fiveRates (regional r x) = fiveRates ++ [x] := rfl
  have hsilent : (scorer sqrt 48).report fiveRates (regional r x) = none := rfl
  have hwindow : (fiveSeen : AnomalyDetector K).window = 48 := rfl
  rw [(passed_firstPass sqrt fiveSeen _).spikes, scored_champions, hwindow, Machine.keyedReports,
    Machine.keyedReports, Machine.keyedReports, Machine.keyedNext_apply, if_pos rfl, hseen, hnext,
    hsilent]
  simp

theorem mean_low : mean (fiveRates ++ [1 / 5] : List ℝ) = 2 / 5 := by norm_num [mean, fiveRates]

theorem std_low : std Real.sqrt (fiveRates ++ [1 / 5]) = 1 / 5 := by
  have hvariance : mean ((fiveRates ++ [1 / 5] : List ℝ).map fun x => (x - 2 / 5) ^ 2)
      = (1 / 5) ^ 2 := by norm_num [mean, fiveRates]
  unfold std
  rw [mean_low, hvariance, Real.sqrt_sq (by norm_num)]

/-- A high rate after a low one is three deviations out. -/
theorem report_high (region : GoString) :
    (scorer Real.sqrt 48).report (fiveRates ++ [1 / 5]) (regional region 1)
      = some (regional region 1, 3) := by
  have hverdict : verdict Real.sqrt (fiveRates ++ [1 / 5]) 1 = (true, 3) := by
    have hz : ((1 - 2 / 5) / (1 / 5) : ℝ) = 3 := by norm_num
    unfold verdict
    rw [std_low, mean_low, hz, if_neg (by decide), if_neg (by norm_num)]
    norm_num [zThreshold]
  show (if (verdict Real.sqrt (fiveRates ++ [1 / 5]) 1).1 then
    some (regional region 1, (verdict Real.sqrt (fiveRates ++ [1 / 5]) 1).2) else none) = _
  rw [hverdict]
  rfl

/-- The detector once it has seen the low rate. -/
def sixSeen : AnomalyDetector K :=
  { window := 48, history := [((ascii "TFT17_Corki", ascii "GOLD"), fiveRates ++ [1 / 5])] }

/-- Two regions of one tier in their order, and another tier before or
between them: the first is an alert in both scans. -/
theorem outcome_keeps_key_order_tiers :
    let na : Entry ℝ := regional (ascii "NA") 1
    let kr : Entry ℝ := regional (ascii "KR") (1 / 5)
    let silver : Entry ℝ := { regional (ascii "NA") (1 / 5) with tier := ascii "SILVER" }
    SameOutcome (runOnce Real.sqrt 0 (champions [na, silver, kr]) sixSeen)
        (runOnce Real.sqrt 0 (champions [silver, na, kr]) sixSeen) ∧
      (runOnce Real.sqrt 0 (champions [na, silver, kr]) sixSeen).2 ≠ [] := by
  intro na kr silver
  refine ⟨(outcome_keeps_key_order Real.sqrt sixSeen 0 0 _ _).1 fun entityId tier => ?_, ?_⟩
  · have hall : scanAll (champions [na, silver, kr]) = [na, silver, kr] := rfl
    have hall' : scanAll (champions [silver, na, kr]) = [silver, na, kr] := rfl
    have hapart : na.tier = tier → silver.tier ≠ tier := by
      rintro rfl
      decide
    rw [hall, hall', checked, checked]
    by_cases htier : na.tier = tier
    · simp only [List.filter_cons, hapart htier, and_false, decide_false, Bool.false_eq_true,
        if_false]
    · simp only [List.filter_cons, htier, and_false, decide_false, Bool.false_eq_true, if_false]
  · have hspikes : (firstPass Real.sqrt sixSeen (scanAll (champions [na, silver, kr]))).spikes
        = _ := (passed_firstPass Real.sqrt sixSeen _).spikes
    have hscored : scored (scanAll (champions [na, silver, kr]))
        = ((ascii "TFT17_Corki", ascii "GOLD"), na) :: scored [silver, kr] := rfl
    have hseen : (sixSeen : AnomalyDetector ℝ).observed (ascii "TFT17_Corki", ascii "GOLD")
        = fiveRates ++ [1 / 5] := rfl
    have hwindow : (sixSeen : AnomalyDetector ℝ).window = 48 := rfl
    rw [hscored, hwindow, Machine.keyedReports, hseen, report_high] at hspikes
    unfold runOnce
    dsimp only
    rw [hspikes]
    simp

/-- A low rate after a high one is below the mean. -/
theorem report_low (region : GoString) :
    (scorer Real.sqrt 48).report (fiveRates ++ [1]) (regional region (1 / 5)) = none := by
  have hz : (1 / 5 - mean (fiveRates ++ [1])) / std Real.sqrt (fiveRates ++ [1]) ≤ 0 := by
    refine div_nonpos_of_nonpos_of_nonneg ?_ (Real.sqrt_nonneg _)
    norm_num [mean, fiveRates]
  have hverdict : (verdict Real.sqrt (fiveRates ++ [1]) (1 / 5)).1 = false := by
    unfold verdict
    split_ifs
    · rfl
    · rfl
    · exact decide_eq_false (not_lt.mpr (hz.trans (by norm_num [zThreshold])))
  show (if (verdict Real.sqrt (fiveRates ++ [1]) (1 / 5)).1 then _ else none) = none
  rw [hverdict]
  rfl

/-- **Two regions in two orders**: the high one after the low one is an
alert, before it it is not. -/
theorem order_within_key_shows : ¬ ∀ (detector : AnomalyDetector ℝ) (now now' : ℕ → ℤ)
    (scan scan' : GoString → List (Entry ℝ)), (∀ etype, (scan etype).Perm (scan' etype)) →
    ∀ a, a ∈ (runOnce Real.sqrt now scan detector).2.map Alert.undated ↔
      a ∈ (runOnce Real.sqrt now' scan' detector).2.map Alert.undated := by
  intro h
  have hperm : ∀ etype,
      (champions [regional (ascii "NA") (1 / 5 : ℝ), regional (ascii "KR") 1] etype).Perm
        (champions [regional (ascii "KR") 1, regional (ascii "NA") (1 / 5)] etype) := by
    intro etype
    unfold champions
    split_ifs
    · exact List.Perm.swap ..
    · exact List.Perm.refl _
  have hall := h fiveSeen 0 0 _ _ hperm
  unfold runOnce at hall
  dsimp only at hall
  rw [undated_alerts, undated_alerts, spikes_champions, spikes_champions, report_high,
    report_low] at hall
  exact (List.not_mem_nil ((hall _).mp (List.mem_map_of_mem (List.mem_singleton_self _))))

end Anomaly

end TftAnalytics

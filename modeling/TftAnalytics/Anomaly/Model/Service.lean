import TftAnalytics.Anomaly.Model.Detector
import Mathlib.Algebra.Order.Floor.Defs
import Mathlib.Algebra.Ring.Parity
/-!
# Anomaly — the service

`AnomalyService.run_once` of `main.py`: a scan of all types, a pass that
scores every entry, and a pass that classifies the spikes and publishes
an alert for each. What the scans return and when the alerts are stamped
are parameters; the metrics are left out.
-/

namespace TftAnalytics

namespace Anomaly

/-- What `run_once` reads of a `StatEntry`. -/
structure Entry (K : Type) where
  entityId : GoString
  entityType : GoString
  patch : GoString
  region : GoString
  tier : GoString
  winRate : K
  avgPlacement : K
  sampleSize : ℤ

/-- An alert, as it is published. -/
structure Alert (K : Type) where
  entityId : GoString
  entityType : GoString
  tier : GoString
  region : GoString
  patch : GoString
  winRate : K
  avgPlacement : K
  zScore : K
  sampleSize : ℤ
  classification : GoString
  direction : GoString
  timestamp : ℤ

/-- `self.entity_types`. -/
def entityTypes : List GoString :=
  [ascii "champion", ascii "item", ascii "augment", ascii "composition"]

variable {K : Type}

/-- `_scan_all`. -/
def scanAll (scan : GoString → List (Entry K)) : List (Entry K) := entityTypes.flatMap scan

/-- What the first pass holds: the detector, the spikes with their scores,
and the tiers of every entity that had data and that spiked. -/
structure Scores (K : Type) where
  detector : AnomalyDetector K
  spikes : List (Entry K × K)
  tiersWithData : List (GoString × List GoString)
  tiersSpiking : List (GoString × List GoString)

variable [Field K] [LinearOrder K] (sqrt : K → K)

/-- One entry in the first pass. -/
def score (s : Scores K) (e : Entry K) : Scores K :=
  let tiersWithData :=
    if minSampleSize ≤ e.sampleSize then upsert [] (List.insert e.tier) e.entityId s.tiersWithData
    else s.tiersWithData
  let (detector, isAnom, z) := s.detector.check sqrt e.entityId e.tier e.winRate e.sampleSize
  if isAnom then
    { detector
      spikes := s.spikes ++ [(e, z)]
      tiersWithData
      tiersSpiking := upsert [] (List.insert e.tier) e.entityId s.tiersSpiking }
  else { s with detector, tiersWithData }

/-- The first pass. -/
def firstPass (detector : AnomalyDetector K) (entries : List (Entry K)) : Scores K :=
  entries.foldl (score sqrt) { detector, spikes := [], tiersWithData := [], tiersSpiking := [] }

/-- `round` to the nearest integer, ties to even. -/
def roundHalfEven [FloorRing K] (x : K) : ℤ :=
  let n := ⌊x⌋
  if x - n < n + 1 - x then n
  else if n + 1 - x < x - n then n + 1
  else if Even n then n
  else n + 1

/-- `round(x, digits)`. -/
def roundTo [FloorRing K] (digits : ℕ) (x : K) : K :=
  roundHalfEven (x * 10 ^ digits) / 10 ^ digits

/-- `CROSS_RANK_FRACTION`. -/
def crossRankFraction : K := 6 / 10

/-- The tiers of an entity in one of the two tables, counted. -/
def tierCount (tiers : List (GoString × List GoString)) (entityId : GoString) : ℕ :=
  (held [] tiers entityId).length

/-- The tag of a spike. -/
def classify (s : Scores K) (entityId : GoString) : GoString :=
  let nData := if tierCount s.tiersWithData entityId = 0 then 1
    else tierCount s.tiersWithData entityId
  let nSpike := tierCount s.tiersSpiking entityId
  if (crossRankFraction : K) ≤ nSpike / nData then ascii "cross_rank" else ascii "tier_specific"

/-- The alert of a spike. -/
def alert [FloorRing K] (s : Scores K) (e : Entry K) (z : K) (timestamp : ℤ) : Alert K :=
  { entityId := e.entityId
    entityType := e.entityType
    tier := e.tier
    region := e.region
    patch := e.patch
    winRate := roundTo 4 e.winRate
    avgPlacement := roundTo 4 e.avgPlacement
    zScore := roundTo 3 z
    sampleSize := e.sampleSize
    classification := classify s e.entityId
    direction := if 0 < z then ascii "rising" else ascii "falling"
    timestamp }

/-- `run_once`: the detector after it, and the alerts that it publishes, at
the readings of the clock. -/
def runOnce [FloorRing K] (now : ℕ → ℤ) (scan : GoString → List (Entry K))
    (detector : AnomalyDetector K) : AnomalyDetector K × List (Alert K) :=
  let s := firstPass sqrt detector (scanAll scan)
  (s.detector, s.spikes.mapIdx fun i spike => alert s spike.1 spike.2 (now i))

end Anomaly

end TftAnalytics

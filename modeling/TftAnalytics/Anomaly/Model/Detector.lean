import TftAnalytics.Common.Bytes
import TftAnalytics.Common.Dict
import Mathlib.Algebra.Order.Field.Basic
/-!
# Anomaly — the detector

`AnomalyDetector` of `detector.py`: a window of win rates for every entity
and tier, against which the next one is scored. The arithmetic is that of
an ordered field, with the square root under `np.std` as a parameter.
-/

namespace TftAnalytics

namespace Anomaly

variable {K : Type} [Field K] [LinearOrder K] (sqrt : K → K)

/-- `MIN_SAMPLE_SIZE`. -/
def minSampleSize : ℤ := 200

/-- `MIN_HISTORY`. -/
def minHistory : ℕ := 6

/-- `Z_THRESHOLD`. -/
def zThreshold : K := 2

/-- `np.mean`. -/
def mean (xs : List K) : K := xs.sum / xs.length

/-- `np.std`: of the whole population. -/
def std (xs : List K) : K := sqrt (mean (xs.map fun x => (x - mean xs) ^ 2))

/-- `append` on a `deque` with a maximal length, which drops from the
left. -/
def appendBounded (maxlen : ℕ) (x : K) (xs : List K) : List K :=
  (xs ++ [x]).drop (xs.length + 1 - maxlen)

/-- An `AnomalyDetector`. -/
structure AnomalyDetector (K : Type) where
  window : ℕ
  history : List ((GoString × GoString) × List K)

namespace AnomalyDetector

/-- `self.history[key]`, of a `defaultdict`. -/
def observed (d : AnomalyDetector K) (key : GoString × GoString) : List K :=
  held [] d.history key

/-- `self.history[key].append(current_win_rate)`. -/
def record (d : AnomalyDetector K) (key : GoString × GoString) (winRate : K) :
    AnomalyDetector K :=
  { d with history := upsert [] (appendBounded d.window winRate) key d.history }

/-- `check`: the detector after it, whether the rate is an anomaly, and its
score. -/
def check (d : AnomalyDetector K) (entityId tier : GoString) (currentWinRate : K)
    (sampleSize : ℤ) : AnomalyDetector K × Bool × K :=
  if sampleSize < minSampleSize then (d, false, 0)
  else
    let key := (entityId, tier)
    let hist := d.observed key
    if hist.length < minHistory then (d.record key currentWinRate, false, 0)
    else if std sqrt hist = 0 then (d.record key currentWinRate, false, 0)
    else
      let z := (currentWinRate - mean hist) / std sqrt hist
      (d.record key currentWinRate, zThreshold < z, z)

end AnomalyDetector

end Anomaly

end TftAnalytics

import TftAnalytics.Common.Dict
import Mathlib.Data.List.Sort
import Mathlib.Algebra.Order.Ring.Rat
/-!
# Dashboard — the tier list

`metaScore` and `rankIntoTiers` of `meta.js`, in exact arithmetic. `sort`
is stable. A row is its three statistics and whatever else it holds.
-/

namespace TftAnalytics

namespace Dashboard

/-- The ids of `TIERS`. -/
inductive Tier where
  | S
  | A
  | B
  | C
  | D
  deriving DecidableEq

/-- `TIERS`: the ids, each with its `cut`. -/
def tiers : List (Tier × ℚ) :=
  [(.S, 10 / 100), (.A, 30 / 100), (.B, 62 / 100), (.C, 88 / 100), (.D, 101 / 100)]

/-- A row, with the fields that are read. -/
structure MetaRow (R : Type) where
  winRate : ℚ
  avgPlacement : ℚ
  sampleSize : ℚ
  rest : R

/-- A row with its `_score` and its `metaTier`. -/
structure RankedRow (R : Type) where
  row : MetaRow R
  score : ℚ
  metaTier : Tier

variable {R : Type}

/-- `metaScore`. -/
def metaScore (r : MetaRow R) (meanWin : ℚ) : ℚ :=
  let base := r.winRate - (r.avgPlacement - 9 / 2) * (5 / 100)
  let conf := min 1 (r.sampleSize / 400)
  meanWin + (base - meanWin) * (4 / 10 + 6 / 10 * conf)

/-- `meanWin`. -/
def meanWin (rows : List (MetaRow R)) : ℚ :=
  rows.foldl (fun s r => s + r.winRate) 0 / rows.length

/-- The percentile of a position. -/
def percentile (i n : ℕ) : ℚ := (i + 1 / 2) / n

/-- The tier of a percentile: the first one whose cut it does not exceed,
and the last one beyond every cut. -/
def tierAt (p : ℚ) : Tier :=
  ((tiers.find? fun t => p ≤ t.2).getD (tiers.getLast (List.cons_ne_nil _ _))).1

/-- What `rankIntoTiers` returns. -/
structure RankedTiers (R : Type) where
  sorted : List (RankedRow R)
  byTier : List (Tier × List (RankedRow R))

/-- The rows by descending score, with their scores. -/
def sortedByScore (rows : List (MetaRow R)) : List (ℚ × MetaRow R) :=
  (rows.map fun r => (metaScore r (meanWin rows), r)).insertionSort fun a b => b.1 ≤ a.1

/-- `rankIntoTiers`. -/
def rankIntoTiers (rows : List (MetaRow R)) : RankedTiers R :=
  let byTier := tiers.map fun t => (t.1, [])
  if rows.isEmpty then { sorted := [], byTier }
  else
    let list := (sortedByScore rows).mapIdx fun i r =>
      { row := r.2, score := r.1, metaTier := tierAt (percentile i rows.length) }
    { sorted := list
      byTier := list.foldl (fun byTier r => upsert [] (· ++ [r]) r.metaTier byTier) byTier }

end Dashboard

end TftAnalytics

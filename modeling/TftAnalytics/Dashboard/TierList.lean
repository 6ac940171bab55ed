import TftAnalytics.Dashboard.Model.Tiers
import TftAnalytics.Common.Buckets
import TftAnalytics.Common.Grouping
import Mathlib.Tactic.Linarith
import Mathlib.Tactic.Positivity
/-!
# Dashboard — tiers partition the list

The percentile grows with the position, and the first cut it does not
exceed does not come earlier for a larger one. So the sorted list is in
the order of its tiers, and these cut it into pieces.
-/

namespace TftAnalytics

namespace Dashboard

variable {R : Type}

/-- The ids, in order. -/
def tierIds : List Tier := tiers.map Prod.fst

/-- Where the first cut is that a percentile does not exceed. -/
def cutIdx (p : ℚ) : ℕ := tiers.findIdx fun t => p ≤ t.2

theorem cutIdx_mono {p q : ℚ} (h : p ≤ q) : cutIdx p ≤ cutIdx q :=
  List.findIdx_le_findIdx fun t _ ht => by
    rw [decide_eq_true_iff] at ht ⊢
    exact h.trans ht

/-- A percentile is below the last cut. -/
theorem percentile_lt {i n : ℕ} (h : i < n) : percentile i n < 101 / 100 := by
  have hn : (0 : ℚ) < n := by exact_mod_cast (Nat.zero_le i).trans_lt h
  have hi : (i : ℚ) + 1 ≤ n := by exact_mod_cast h
  unfold percentile
  rw [div_lt_iff₀ hn]
  linarith

theorem percentile_mono {i j n : ℕ} (h : i ≤ j) : percentile i n ≤ percentile j n := by
  have hij : (i : ℚ) ≤ j := by exact_mod_cast h
  unfold percentile
  gcongr

theorem cutIdx_lt {p : ℚ} (h : p < 101 / 100) : cutIdx p < tiers.length :=
  List.findIdx_lt_length_of_exists ⟨(.D, 101 / 100), by simp [tiers], by simpa using h.le⟩

/-- **The tier of a percentile** is the one of that cut, and no fallback. -/
theorem tierAt_spec {p : ℚ} (h : p < 101 / 100) :
    (tiers.find? fun t => p ≤ t.2).isSome ∧ tierIds.idxOf (tierAt p) = cutIdx p := by
  have hlt := cutIdx_lt h
  have hfind : (tiers.find? fun t => p ≤ t.2) = some tiers[cutIdx p] := by
    rw [List.find?_eq_getElem?_findIdx]
    exact List.getElem?_eq_getElem hlt
  refine ⟨by rw [hfind]; rfl, ?_⟩
  have hnodup : tierIds.Nodup := by decide
  have hlen : cutIdx p < tierIds.length := hlt
  have htier : tierAt p = tierIds[cutIdx p] := by
    unfold tierAt
    rw [hfind, Option.getD_some]
    exact (List.getElem_map ..).symm
  rw [htier]
  exact hnodup.idxOf_getElem _ hlen

theorem mem_tierIds (t : Tier) : t ∈ tierIds := by
  cases t <;> decide

/-! ## The list -/

theorem length_sortedByScore (rows : List (MetaRow R)) :
    (sortedByScore rows).length = rows.length := by
  unfold sortedByScore
  rw [List.length_insertionSort, List.length_map]

/-- The ranked rows of a list that is not empty. -/
def ranked (rows : List (MetaRow R)) : List (RankedRow R) :=
  (sortedByScore rows).mapIdx fun i r =>
    { row := r.2, score := r.1, metaTier := tierAt (percentile i rows.length) }

/-- **The buckets are filled row by row**, whether the list is empty or not. -/
theorem rankIntoTiers_eq (rows : List (MetaRow R)) :
    rankIntoTiers rows
      = { sorted := ranked rows
          byTier := gather [] (fun bucket r => bucket ++ [r])
            ((ranked rows).map fun r => (r.metaTier, r)) (tiers.map fun t => (t.1, [])) } := by
  unfold rankIntoTiers
  dsimp only
  split_ifs with hempty
  · obtain rfl := List.isEmpty_iff.mp hempty
    rfl
  · unfold gather
    rw [List.foldl_map]
    rfl

/-- **A bucket** holds the rows of its tier, in the order of the list. -/
theorem held_byTier (rows : List (MetaRow R)) (t : Tier) :
    held [] (rankIntoTiers rows).byTier t = (ranked rows).filter (·.metaTier = t) := by
  have hstart : held [] (tiers.map fun t => (t.1, ([] : List (RankedRow R)))) t = [] := by
    cases t <;> rfl
  rw [rankIntoTiers_eq, held_gather_from, hstart, valuesAt_map_key, foldl_concat]

theorem length_ranked (rows : List (MetaRow R)) : (ranked rows).length = rows.length := by
  rw [ranked, List.length_mapIdx, length_sortedByScore]

theorem metaTier_ranked (rows : List (MetaRow R)) {i : ℕ} (h : i < (ranked rows).length) :
    (ranked rows)[i].metaTier = tierAt (percentile i rows.length) :=
  congrArg RankedRow.metaTier (List.getElem_mapIdx ..)

/-- **Tiers come in order.** -/
theorem pairwise_ranked (rows : List (MetaRow R)) :
    (ranked rows).Pairwise fun a b => tierIds.idxOf a.metaTier ≤ tierIds.idxOf b.metaTier := by
  rw [List.pairwise_iff_getElem]
  intro i j hi hj hij
  have hlen := length_ranked rows
  rw [metaTier_ranked, metaTier_ranked, (tierAt_spec (percentile_lt (hlen ▸ hi))).2,
    (tierAt_spec (percentile_lt (hlen ▸ hj))).2]
  exact cutIdx_mono (percentile_mono hij.le)

/-- The rows of the list with their scores, whatever their tiers. -/
theorem map_ranked (rows : List (MetaRow R)) :
    (ranked rows).map (fun r => (r.score, r.row)) = sortedByScore rows := by
  refine List.ext_getElem ?_ fun i hi hi' => ?_
  · rw [List.length_map, length_ranked, length_sortedByScore]
  · have hrow : i < (ranked rows).length := by simpa using hi
    have hget : (ranked rows)[i] = _ := List.getElem_mapIdx ..
    rw [List.getElem_map, hget]

/-- **The list is the rows, sorted by descending score.** -/
theorem ranked_sorted (rows : List (MetaRow R)) :
    ((ranked rows).map (·.row)).Perm rows ∧
      (∀ r ∈ ranked rows, r.score = metaScore r.row (meanWin rows)) ∧
      (ranked rows).Pairwise fun a b => b.score ≤ a.score := by
  have hmap := map_ranked rows
  have hperm : (sortedByScore rows).Perm (rows.map fun r => (metaScore r (meanWin rows), r)) :=
    List.perm_insertionSort _ _
  refine ⟨?_, fun r hr => ?_, ?_⟩
  · have hrows := hperm.map Prod.snd
    rw [← hmap, List.map_map, List.map_map] at hrows
    exact hrows.trans (List.Perm.of_eq (List.map_id' rows))
  · have hmem : (r.score, r.row) ∈ sortedByScore rows := hmap ▸ List.mem_map_of_mem hr
    obtain ⟨row, -, heq⟩ := List.mem_map.mp (hperm.mem_iff.mp hmem)
    obtain ⟨hscore, rfl⟩ := Prod.mk.inj heq
    exact hscore.symm
  · have htotal : Std.Total fun a b : ℚ × MetaRow R => b.1 ≤ a.1 :=
      ⟨fun a b => le_total b.1 a.1⟩
    have htrans : IsTrans (ℚ × MetaRow R) fun a b => b.1 ≤ a.1 := ⟨fun _ _ _ h h' => h'.trans h⟩
    have hsorted : (sortedByScore rows).Pairwise fun a b => b.1 ≤ a.1 :=
      List.pairwise_insertionSort _ _
    rw [← hmap, List.pairwise_map] at hsorted
    exact hsorted

/-- **The tiers partition the list in order.** The buckets are those of the
five tiers; one after another they are the sorted list, which holds the
rows by descending meta score; a row of a bucket carries its tier, and the
rows of a tier are in its bucket; and no position is beyond every cut. -/
theorem tiers_partition (rows : List (MetaRow R)) :
    let out := rankIntoTiers rows
    out.byTier.map Prod.fst = [.S, .A, .B, .C, .D] ∧
      held [] out.byTier .S ++ held [] out.byTier .A ++ held [] out.byTier .B
        ++ held [] out.byTier .C ++ held [] out.byTier .D = out.sorted ∧
      (out.sorted.map (·.row)).Perm rows ∧
      (∀ r ∈ out.sorted, r.score = metaScore r.row (meanWin rows)) ∧
      (out.sorted.Pairwise fun a b => b.score ≤ a.score) ∧
      (∀ t, held [] out.byTier t = out.sorted.filter (·.metaTier = t)) ∧
      ∀ i < rows.length, (tiers.find? fun t => percentile i rows.length ≤ t.2).isSome := by
  intro out
  have hsorted : out.sorted = ranked rows := congrArg RankedTiers.sorted (rankIntoTiers_eq rows)
  have hbucket : ∀ t, held [] out.byTier t = (ranked rows).filter (·.metaTier = t) :=
    held_byTier rows
  obtain ⟨hperm, hscore, hdescending⟩ := ranked_sorted rows
  rw [hsorted]
  refine ⟨?_, ?_, hperm, hscore, hdescending, hbucket, fun i hi => ?_⟩
  · have hbyTier : out.byTier = _ := congrArg RankedTiers.byTier (rankIntoTiers_eq rows)
    rw [hbyTier, keys_gather_from]
    · rfl
    · intro p _
      rw [List.map_map]
      exact mem_tierIds p.1
  · have hflat := flatMap_filter_of_sorted RankedRow.metaTier (by decide : tierIds.Nodup)
      (pairwise_ranked rows) fun r _ => mem_tierIds r.metaTier
    simp only [← hbucket] at hflat
    rw [← hflat]
    simp [tierIds, tiers]
  · exact (tierAt_spec (percentile_lt hi)).1

end Dashboard

end TftAnalytics

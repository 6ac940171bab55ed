import TftAnalytics.Metastore.Model.Entry
import TftAnalytics.Common.Choice
import Mathlib.Data.Int.ConditionallyCompleteOrder
import Mathlib.Data.Prod.Lex
import Mathlib.Order.ConditionallyCompleteLattice.Basic
import Mathlib.Algebra.Order.BigOperators.Group.Finset
/-!
# Metastore — the order behind conflict resolution

Helper layer. On clocks whose counters are non-negative and whose sum is
an `int64`, `pickNewer` is a maximum: of the pairs of clock sum and sample
size, compared lexicographically. The dominance test that comes first
agrees with the sums there, since a clock that strictly dominates another
has a strictly larger sum.
-/

namespace TftAnalytics

namespace Metastore

/-- The counters of a clock as integers; a missing node counts zero. -/
def count (vc : Option VectorClock) (node : GoString) : ℤ := (counter (clockMap vc) node).toInt

/-- The nodes a clock names. -/
def clockNodes (vc : Option VectorClock) : Finset GoString := (clockMap vc).keys.toFinset

/-- The sum of the counters, without wrapping. -/
def clockSum (vc : Option VectorClock) : ℤ :=
  ((clockMap vc).entries.map fun p => p.2.toInt).sum

/-- **A clock the program's arithmetic is sound for**: no counter is
negative and their sum is an `int64`. -/
def Clocked (e : StatEntry) : Prop :=
  (∀ p ∈ (clockMap e.clock).entries, 0 ≤ p.2) ∧ clockSum e.clock < 2 ^ 63

instance (e : StatEntry) : Decidable (Clocked e) := inferInstanceAs (Decidable (_ ∧ _))

/-- What entries are compared by: the clock sum, then the sample size. -/
def clockRank (e : StatEntry) : ℤ ×ₗ ℤ := toLex (clockSum e.clock, e.sampleSize.toInt)

/-! ## Sums -/

theorem nonneg_toInt {x : Int64} (h : 0 ≤ x) : 0 ≤ x.toInt := by
  have := Int64.le_iff_toInt_le.mp h
  simpa using this

/-- Adding up non-negative numbers whose total fits never wraps. -/
theorem foldl_int64_toInt (l : List (Sigma fun _ : GoString => Int64)) :
    ∀ s : Int64, 0 ≤ s.toInt → (∀ p ∈ l, 0 ≤ p.2) →
      s.toInt + (l.map fun p => p.2.toInt).sum < 2 ^ 63 →
      (l.foldl (fun s p => s + p.2) s).toInt = s.toInt + (l.map fun p => p.2.toInt).sum := by
  induction l with
  | nil => simp
  | cons p l ih =>
    intro s hs hl hsum
    have hp : 0 ≤ p.2.toInt := nonneg_toInt (hl p (by simp))
    have htail : 0 ≤ (l.map fun p => p.2.toInt).sum :=
      List.sum_nonneg (by
        intro x hx
        obtain ⟨q, hq, rfl⟩ := List.mem_map.mp hx
        exact nonneg_toInt (hl q (by simp [hq])))
    simp only [List.map_cons, List.sum_cons] at hsum ⊢
    have hadd : (s + p.2).toInt = s.toInt + p.2.toInt := by
      rw [Int64.toInt_add]
      apply Int.bmod_eq_of_le
      · omega
      · omega
    rw [List.foldl_cons, ih (s + p.2) (by omega) (fun q hq => hl q (by simp [hq])) (by omega), hadd]
    omega

/-- **`vcSum` is the sum** on such clocks. -/
theorem Clocked.vcSum_eq {e : StatEntry} (h : Clocked e) :
    (vcSum e.clock).toInt = clockSum e.clock := by
  have hfold := foldl_int64_toInt (clockMap e.clock).entries 0 (by simp) h.1 (by
    simpa [clockSum] using h.2)
  simpa [vcSum, clockSum] using hfold

/-- The sum of the counters, as a sum over any nodes that include the
clock's. -/
theorem clockSum_eq_sum {vc : Option VectorClock} {s : Finset GoString} (h : clockNodes vc ⊆ s) :
    clockSum vc = ∑ node ∈ s, count vc node := by
  have hentries : ∀ p ∈ (clockMap vc).entries, count vc p.1 = p.2.toInt := by
    intro p hp
    have hlookup : (clockMap vc).lookup p.1 = some p.2 := AList.mem_lookup_iff.mpr hp
    rw [count, counter, hlookup, Option.getD_some]
  have hkeys : ((clockMap vc).entries.map fun p => p.2.toInt).sum
      = ((clockMap vc).keys.map (count vc)).sum := by
    rw [AList.keys, List.keys, List.map_map]
    congr 1
    exact List.map_congr_left fun p hp => (hentries p hp).symm
  rw [clockSum, hkeys, ← Finset.sum_subset h]
  · exact (List.sum_toFinset _ (clockMap vc).keys_nodup).symm
  · intro node _ hnot
    have hmem : node ∉ clockMap vc := fun hmem =>
      hnot (List.mem_toFinset.mpr hmem)
    have hlookup : (clockMap vc).lookup node = none := AList.lookup_eq_none.mpr hmem
    rw [count, counter, hlookup]
    rfl

/-! ## Dominance -/

theorem count_nonneg {e : StatEntry} (h : Clocked e) (node : GoString) :
    0 ≤ count e.clock node := by
  rw [count, counter]
  cases hl : (clockMap e.clock).lookup node with
  | none => simp
  | some v => exact nonneg_toInt (h.1 ⟨node, v⟩ (AList.mem_lookup_iff.mp hl))

/-- **Dominance is the pointwise order**, missing nodes counting zero. -/
theorem vcDominates_iff {a b : StatEntry} (ha : Clocked a) :
    vcDominates a.clock b.clock = true ↔ ∀ node, count b.clock node ≤ count a.clock node := by
  simp only [vcDominates, List.all_eq_true, Bool.not_eq_true', decide_eq_false_iff_not]
  constructor
  · intro h node
    cases hl : (clockMap b.clock).lookup node with
    | none =>
      have hzero : count b.clock node = 0 := by simp [count, counter, hl]
      exact hzero ▸ count_nonneg ha node
    | some v =>
      have hle := h ⟨node, v⟩ (AList.mem_lookup_iff.mp hl)
      rw [Int64.lt_iff_toInt_lt, not_lt] at hle
      have hv : count b.clock node = v.toInt := by simp [count, counter, hl]
      exact hv ▸ hle
  · intro h p hp
    have hlookup : (clockMap b.clock).lookup p.1 = some p.2 := AList.mem_lookup_iff.mpr hp
    have hle := h p.1
    rw [count, count, counter, counter, hlookup, Option.getD_some] at hle
    rw [Int64.lt_iff_toInt_lt, not_lt]
    exact hle

/-- **A clock that strictly dominates another has the larger sum.** -/
theorem clockSum_lt_of_dominates {a b : StatEntry} (ha : Clocked a) (hb : Clocked b)
    (hab : vcDominates a.clock b.clock = true) (hba : vcDominates b.clock a.clock = false) :
    clockSum b.clock < clockSum a.clock := by
  rw [vcDominates_iff ha] at hab
  have hlt : ∃ node, count b.clock node < count a.clock node := by
    by_contra hnone
    push Not at hnone
    rw [(vcDominates_iff hb).mpr hnone] at hba
    exact absurd hba (by simp)
  obtain ⟨node, hnode⟩ := hlt
  set s := clockNodes a.clock ∪ clockNodes b.clock with hs
  rw [clockSum_eq_sum (s := s) Finset.subset_union_left,
    clockSum_eq_sum (s := s) Finset.subset_union_right]
  refine Finset.sum_lt_sum (fun n _ => hab n) ⟨node, ?_, hnode⟩
  by_contra hnot
  have hzero : count a.clock node = 0 := by
    have hmem : node ∉ clockMap a.clock := fun hmem =>
      hnot (Finset.mem_union_left _ (List.mem_toFinset.mpr hmem))
    simp [count, counter, AList.lookup_eq_none.mpr hmem]
  have := count_nonneg hb node
  omega

theorem clockSum_eq_of_dominates {a b : StatEntry} (ha : Clocked a) (hb : Clocked b)
    (hab : vcDominates a.clock b.clock = true) (hba : vcDominates b.clock a.clock = true) :
    clockSum a.clock = clockSum b.clock := by
  rw [vcDominates_iff ha] at hab
  rw [vcDominates_iff hb] at hba
  rw [clockSum_eq_sum (s := clockNodes a.clock ∪ clockNodes b.clock) Finset.subset_union_left,
    clockSum_eq_sum (s := clockNodes a.clock ∪ clockNodes b.clock) Finset.subset_union_right]
  exact Finset.sum_congr rfl fun n _ => le_antisymm (hba n) (hab n)

/-! ## Conflict resolution -/

/-- The winner of a conflict is one of the two. -/
theorem newerOf_choice (a b : StatEntry) : newerOf a b = a ∨ newerOf a b = b := by
  simp only [newerOf]
  split_ifs <;> simp

theorem pickNewer_eq_pickOption : pickNewer = pickOption newerOf := by
  funext a b
  cases a <;> cases b <;> rfl

/-- What `newerOf` decides on once dominance is settled: the first argument
wins unless the second is strictly larger. -/
theorem newerOf_eq {a b : StatEntry} (ha : Clocked a) (hb : Clocked b) :
    newerOf a b = if clockRank a < clockRank b then b else a := by
  have hsum : vcSum a.clock = vcSum b.clock ↔ clockSum a.clock = clockSum b.clock := by
    rw [← ha.vcSum_eq, ← hb.vcSum_eq, Int64.toInt_inj]
  have hgt : vcSum a.clock > vcSum b.clock ↔ clockSum b.clock < clockSum a.clock := by
    rw [← ha.vcSum_eq, ← hb.vcSum_eq, gt_iff_lt, Int64.lt_iff_toInt_lt]
  have hsample : a.sampleSize ≥ b.sampleSize ↔ b.sampleSize.toInt ≤ a.sampleSize.toInt := by
    rw [ge_iff_le, Int64.le_iff_toInt_le]
  have hlt : clockRank a < clockRank b ↔ clockSum a.clock < clockSum b.clock ∨
      clockSum a.clock = clockSum b.clock ∧ a.sampleSize.toInt < b.sampleSize.toInt := by
    simp [clockRank, Prod.Lex.toLex_lt_toLex]
  simp only [newerOf, hgt, hsample, hlt, ne_eq, hsum]
  cases hab : vcDominates a.clock b.clock <;> cases hba : vcDominates b.clock a.clock
  · simp only [Bool.false_and, Bool.false_eq_true, if_false]
    split_ifs <;> first | rfl | omega
  · have := clockSum_lt_of_dominates hb ha hba hab
    simp [this]
  · have := clockSum_lt_of_dominates ha hb hab hba
    simp only [Bool.not_false, Bool.and_true, if_true]
    rw [if_neg (by omega)]
  · have := clockSum_eq_of_dominates ha hb hab hba
    simp only [this, Bool.not_true, Bool.and_false, Bool.false_eq_true, if_false,
      not_true_eq_false, lt_irrefl, false_or, true_and]
    split_ifs <;> first | rfl | omega

/-- **On such clocks `pickNewer` is a maximum** of clock sum and sample
size, the sum first. -/
theorem choosesMax_newerOf : ChoosesMax newerOf clockRank {e | Clocked e} where
  choice := newerOf_choice
  rank_pick := by
    intro a b ha hb
    rw [newerOf_eq ha hb]
    split_ifs with h
    · exact (max_eq_right h.le).symm
    · exact (max_eq_left (not_lt.mp h)).symm

end Metastore

end TftAnalytics

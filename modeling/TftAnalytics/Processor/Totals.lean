import TftAnalytics.Processor.Aggregation
import Mathlib.Algebra.BigOperators.Group.Finset.Basic
import Mathlib.Algebra.BigOperators.Group.Finset.Piecewise
import Mathlib.Tactic.FieldSimp
/-!
# Processor — what the compositions add up to

Every board is one composition, so nothing is lost or counted twice in the
comp list: weighted by their samples, the averages of a slice's
compositions are those of its boards.
-/

namespace TftAnalytics

/-! ## Sums under keys -/

section

variable {κ β M : Type} [DecidableEq κ] [AddCommMonoid M]

/-- **A sum, key by key.** -/
theorem sum_valuesAt (f : β → M) (K : Finset κ) (pairs : List (κ × β)) :
    ∑ key ∈ K, ((valuesAt pairs key).map f).sum
      = ((pairs.filter fun p => decide (p.1 ∈ K)).map fun p => f p.2).sum := by
  induction pairs with
  | nil => simp
  | cons p pairs ih =>
    have hhead : ∑ key ∈ K, ((if p.1 = key then [p.2] else []).map f).sum
        = if p.1 ∈ K then f p.2 else 0 := by
      rw [← Finset.sum_ite_eq K p.1 fun _ => f p.2]
      refine Finset.sum_congr rfl fun key _ => ?_
      split_ifs <;> simp
    simp only [valuesAt_cons, List.map_append, List.sum_append]
    rw [Finset.sum_add_distrib, ih, hhead]
    by_cases hmem : p.1 ∈ K
    · rw [if_pos hmem, List.filter_cons_of_pos (by simpa using hmem), List.map_cons,
        List.sum_cons]
    · rw [if_neg hmem, List.filter_cons_of_neg (by simpa using hmem), zero_add]

end

namespace Processor

variable {cost : GoString → ℕ} {batch : List MatchEvent}

/-- The placements of the boards of a slice. -/
def placements (batch : List MatchEvent) (slice : Slice) : List Int32 :=
  (valuesAt (seated batch) slice).map PlayerResult.placement

/-- The boards of a slice are those of its matches. -/
theorem valuesAt_seated (batch : List MatchEvent) (slice : Slice) :
    valuesAt (seated batch) slice
      = (batch.filter fun m => decide (m.slice = slice)).flatMap MatchEvent.players := by
  unfold seated
  induction batch with
  | nil => rfl
  | cons m batch ih =>
    have hmatch : valuesAt (m.players.map fun player => (m.slice, player)) slice
        = if m.slice = slice then m.players else [] := by
      unfold valuesAt
      rw [List.filter_map, List.map_map]
      by_cases hm : m.slice = slice <;> simp [hm, Function.comp_def]
    rw [List.flatMap_cons, valuesAt_append, ih, hmatch]
    by_cases hm : m.slice = slice <;> simp [hm]

/-- The entries that `flush` makes of a batch for the compositions of a
slice. -/
def compositions (cost : GoString → ℕ) (batch : List MatchEvent) (slice : Slice) : List Stat :=
  (aggregated cost batch).filter fun s => IsComposition slice s.key

/-- A board contributes one composition to its slice. -/
theorem filter_contributions (slice slice' : Slice) (player : PlayerResult) :
    (((player.contributions cost slice).filter fun p => IsComposition slice' p.1).map Prod.snd)
      = if slice = slice' then [player.placement] else [] := by
  rw [PlayerResult.contributions, List.filter_map, List.map_map]
  show ((player.keys cost slice).filter (IsComposition slice')).map (fun _ => player.placement) = _
  rw [List.map_const', ← List.countP_eq_length_filter, countP_keys]
  split_ifs <;> rfl

/-- **The placements of the compositions are those of the boards.** -/
theorem map_snd_compositions (cost : GoString → ℕ) (batch : List MatchEvent) (slice : Slice) :
    ((contributions cost batch).filter fun p => IsComposition slice p.1).map Prod.snd
      = placements batch slice := by
  unfold contributions placements valuesAt
  rw [List.filter_flatMap, List.map_flatMap]
  simp only [filter_contributions]
  induction seated batch with
  | nil => rfl
  | cons b bs ih =>
    rw [List.flatMap_cons, ih]
    by_cases hb : b.1 = slice <;> simp [hb]

/-- A sum over the entries of the compositions, where an entry adds up what
its placements add. -/
theorem sum_compositions (slice : Slice) {f : Stat → ℚ} {w : Int32 → ℚ}
    (h : ∀ key xs n, f (statOf key xs n) = (xs.map w).sum) :
    ((compositions cost batch slice).map f).sum = ((placements batch slice).map w).sum := by
  set pairs := contributions cost batch with hpairs
  set keys := (pairs.map Prod.fst).dedup.filter (IsComposition slice) with hkeys
  have hnodup : keys.Nodup := (List.nodup_dedup _).filter _
  have hfilter : (pairs.filter fun p => decide (p.1 ∈ keys.toFinset))
      = pairs.filter fun p => IsComposition slice p.1 := by
    refine List.filter_congr fun p hp => ?_
    have hmem : p.1 ∈ keys.toFinset ↔ IsComposition slice p.1 = true := by
      rw [List.mem_toFinset, hkeys, List.mem_filter, List.mem_dedup]
      exact and_iff_right (List.mem_map_of_mem hp)
    rw [Bool.eq_iff_iff, decide_eq_true_iff]
    exact hmem
  calc ((compositions cost batch slice).map f).sum
      = (((specification cost batch).filter fun s => IsComposition slice s.key).map f).sum :=
        (((aggregated_perm cost batch).filter _).map f).sum_eq
    _ = (keys.map fun key => ((valuesAt pairs key).map w).sum).sum := by
        unfold specification
        rw [List.filter_map, List.map_map]
        exact congrArg List.sum (List.map_congr_left fun key _ => h key _ _)
    _ = ∑ key ∈ keys.toFinset, ((valuesAt pairs key).map w).sum :=
        (List.sum_toFinset _ hnodup).symm
    _ = ((pairs.filter fun p => IsComposition slice p.1).map fun p => w p.2).sum := by
        rw [sum_valuesAt, hfilter]
    _ = ((placements batch slice).map w).sum := by
        rw [← map_snd_compositions cost, List.map_map]
        rfl

/-- A sum over no placement is nothing. -/
theorem length_mul_div (xs : List Int32) (q : ℚ) (h : xs = [] → q = 0) :
    (xs.length : ℚ) * (q / xs.length) = q := by
  rcases xs with _ | ⟨x, xs⟩
  · simp [h rfl]
  · exact mul_div_cancel₀ q (Nat.cast_ne_zero.mpr (Nat.succ_ne_zero _))

/-- A count is a sum of ones. -/
theorem cast_countP (p : Int32 → Bool) (xs : List Int32) :
    (xs.countP p : ℚ) = (xs.map fun x => if p x then 1 else 0).sum := by
  induction xs with
  | nil => rfl
  | cons x xs ih =>
    rw [List.countP_cons, Nat.cast_add, ih, List.map_cons, List.sum_cons, add_comm]
    split_ifs <;> simp

/-- **The compositions of a slice add up to its boards.** For any batch and
slice, the samples of the compositions add up to the boards of the slice,
and, weighted by the samples, their average placements to the placements of
these boards and their win rates to the boards that are placed fourth or
better. -/
theorem composition_totals (cost : GoString → ℕ) (batch : List MatchEvent) (slice : Slice) :
    ((compositions cost batch slice).map fun s => (s.sampleSize : ℚ)).sum
        = (placements batch slice).length ∧
      ((compositions cost batch slice).map fun s => (s.sampleSize : ℚ) * s.avgPlacement).sum
        = ((placements batch slice).map Int32.toInt).sum ∧
      ((compositions cost batch slice).map fun s => (s.sampleSize : ℚ) * s.winRate).sum
        = (placements batch slice).countP fun x => decide (x ≤ 4) := by
  refine ⟨?_, ?_, ?_⟩
  · rw [sum_compositions slice (w := fun _ => 1) fun key xs n => ?_]
    · simp
    · simp [statOf]
  · rw [sum_compositions slice (w := fun x => (x.toInt : ℚ)) fun key xs n => ?_]
    · rw [Int.cast_list_sum, List.map_map]
      rfl
    · show (xs.length : ℚ) * (_ / xs.length) = _
      rw [length_mul_div xs _ (by rintro rfl; simp), Int.cast_list_sum, List.map_map]
      rfl
  · rw [sum_compositions slice (w := fun x => if decide (x ≤ 4) then 1 else 0) fun key xs n => ?_]
    · rw [cast_countP]
    · show (xs.length : ℚ) * (_ / xs.length) = _
      rw [length_mul_div xs _ (by rintro rfl; simp), cast_countP]

/-! ## Which compositions there are -/

/-- The labels of the boards of a slice. -/
def labels (cost : GoString → ℕ) (batch : List MatchEvent) (slice : Slice) : List GoString :=
  (valuesAt (seated batch) slice).map fun player => compositionLabel cost player.units

/-- A board contributes to the composition that it is labelled with. -/
theorem count_keys_composition (slice slice' : Slice) (player : PlayerResult) (id : GoString) :
    (player.keys cost slice).count ⟨id, .composition, slice'⟩
      = if slice = slice' ∧ compositionLabel cost player.units = id then 1 else 0 := by
  rw [PlayerResult.keys, List.count_append, List.count_eq_zero_of_not_mem, zero_add,
    List.count_singleton]
  · simp [and_comm]
  · -- no other key is of a composition
    intro hmem
    simp only [itemKey, pairKey, List.mem_append, List.mem_map, List.mem_flatMap,
      StatKey.mk.injEq] at hmem
    simp at hmem

theorem count_compositions (cost : GoString → ℕ) (batch : List MatchEvent) (slice : Slice)
    (id : GoString) :
    ((contributions cost batch).map Prod.fst).count ⟨id, .composition, slice⟩
      = (labels cost batch slice).count id := by
  rw [map_fst_contributions, List.count_flatMap, labels]
  induction seated batch with
  | nil => rfl
  | cons b bs ih =>
    rw [List.map_cons, List.sum_cons, ih, valuesAt_cons, List.map_append, List.count_append,
      Function.comp_apply, count_keys_composition]
    by_cases hb : b.1 = slice <;> simp [hb, List.count_singleton]

/-- **The comp list counts the labels of the boards.** -/
theorem exists_mem_compositions_iff {slice : Slice} {id : GoString} {n : ℕ} :
    (∃ s ∈ compositions cost batch slice, s.key.entityId = id ∧ s.sampleSize = n)
      ↔ 0 < n ∧ (labels cost batch slice).count id = n := by
  have hmem : ∀ s, s ∈ compositions cost batch slice ↔
      s ∈ specification cost batch ∧ IsComposition slice s.key = true := fun s => by
    rw [compositions, List.mem_filter, (aggregated_perm cost batch).mem_iff]
  simp only [hmem, specification, List.mem_map, List.mem_dedup]
  constructor
  · rintro ⟨s, ⟨⟨key, hkey, rfl⟩, hcomposition⟩, rfl, rfl⟩
    obtain ⟨htype, hslice⟩ := of_decide_eq_true hcomposition
    have heq : key = ⟨key.entityId, .composition, slice⟩ := StatKey.ext rfl htype hslice
    have hsize : (valuesAt (contributions cost batch) key).length
        = (labels cost batch slice).count key.entityId := by
      rw [length_valuesAt, heq, count_compositions]
    refine ⟨?_, hsize.symm⟩
    show 0 < (valuesAt (contributions cost batch) key).length
    rw [length_valuesAt]
    exact List.count_pos_iff.mpr (List.mem_map.mpr hkey)
  · rintro ⟨hpos, hcount⟩
    have hlen : (valuesAt (contributions cost batch) ⟨id, .composition, slice⟩).length = n := by
      rw [length_valuesAt, count_compositions, hcount]
    refine ⟨_, ⟨⟨⟨id, .composition, slice⟩, ?_, rfl⟩, decide_eq_true ⟨rfl, rfl⟩⟩, rfl, hlen⟩
    rw [← List.mem_map, ← List.count_pos_iff, count_compositions, hcount]
    exact hpos

end Processor

end TftAnalytics

import TftAnalytics.Processor.Helpers.Aggregator
import Mathlib.Algebra.BigOperators.Group.List.Lemmas
import Mathlib.Algebra.BigOperators.Ring.Finset
import Mathlib.Algebra.BigOperators.Ring.List
import Mathlib.Algebra.Order.BigOperators.Group.List
import Mathlib.Algebra.Order.Field.Rat
import Mathlib.Tactic.FieldSimp
/-!
# Processor — the aggregation is its specification

`flush` emits one entry for each key that a board contributed to, with the
stats of the contributions. The order of the matches, of the players and
of the units decides the order of the entries and nothing else, and the
compositions of a slice share its boards among them.
-/

namespace TftAnalytics

namespace Processor

variable {cost : GoString → ℕ} {batch batch' : List MatchEvent}

/-! ## Flushing -/

/-- A contribution comes from a board of its slice. -/
theorem slice_mem_boards {p : StatKey × Int32} (h : p ∈ contributions cost batch) :
    p.1.slice ∈ boards batch := by
  simp only [contributions, PlayerResult.contributions, List.mem_flatMap, List.mem_map] at h
  obtain ⟨b, hb, key, hkey, rfl⟩ := h
  refine List.mem_map.mpr ⟨b, hb, ?_⟩
  simp only [PlayerResult.keys, itemKey, pairKey, List.mem_append, List.mem_map, List.mem_flatMap,
    List.mem_singleton] at hkey
  rcases hkey with (((⟨u, -, rfl⟩ | ⟨u, -, item, -, rfl⟩) | ⟨item, -, rfl⟩) | ⟨a, -, rfl⟩) | rfl <;>
    rfl

/-- The placements in another order have the same stats. -/
theorem statOf_perm {xs ys : List Int32} (h : xs.Perm ys) (key : StatKey) (n : ℕ) :
    statOf key xs n = statOf key ys n := by
  simp only [statOf, h.length_eq, h.countP_eq, (h.map fun x => x.toInt).sum_eq]

/-- **An entry of `flush`** is the stats of its buffer. -/
theorem stat_eq {totals : List (Slice × ℕ)} {key : StatKey} {xs : List Int32} {n : ℕ}
    (hxs : xs ≠ []) (hn : n ≠ 0) (htotals : totals.lookup key.slice = some n) :
    StatAggregator.stat totals (key, xs) = some (statOf key xs n) := by
  have hlen : xs.length ≠ 0 := fun h => hxs (List.length_eq_zero_iff.mp h)
  simp only [StatAggregator.stat, if_neg hlen, htotals, Option.getD_some, if_neg hn]
  rfl

/-- The boards of a slice, as the aggregator counts them. -/
theorem lookup_totals {totals : List (Slice × ℕ)} {slices : List Slice}
    (h : totals = gather 0 (fun n _ => n + 1) (slices.map fun s => (s, ())) []) {slice : Slice}
    (hslice : slice ∈ slices) : totals.lookup slice = some (slices.count slice) := by
  have hfst : (slices.map fun s => (s, ())).map Prod.fst = slices := by
    rw [List.map_map]
    exact List.map_id _
  rw [h, lookup_gather, hfst, if_pos hslice, foldl_succ, length_valuesAt, hfst]

/-- **The aggregator does what is specified.** -/
theorem aggregated_perm (cost : GoString → ℕ) (batch : List MatchEvent) :
    (aggregated cost batch).Perm (specification cost batch) := by
  obtain ⟨⟨qs, hqs, hbuffers⟩, htotals⟩ := StatAggregator.adds_processBatch cost batch
  have hgather := gather_perm [] (fun xs x => xs ++ [x]) qs
  rw [show gather [] _ qs [] = (StatAggregator.new.processBatch cost batch).buffers from
    hbuffers.symm] at hgather
  unfold aggregated StatAggregator.flush specification
  refine (hgather.filterMap _).trans ?_
  rw [List.filterMap_map]
  set keys := ((contributions cost batch).map Prod.fst).dedup with hkeys
  have hdedup : (qs.map Prod.fst).dedup.Perm keys := (hqs.map _).dedup
  refine (hdedup.filterMap _).trans ?_
  rw [← List.filterMap_eq_map]
  refine List.Perm.of_eq (List.filterMap_congr fun key hkey => ?_)
  have hmem : key ∈ (contributions cost batch).map Prod.fst := List.mem_dedup.mp hkey
  obtain ⟨p, hp, rfl⟩ := List.mem_map.mp hmem
  -- the buffer of the key, and the boards of its slice
  have hperm : (valuesAt qs p.1).Perm (valuesAt (contributions cost batch) p.1) :=
    valuesAt_perm hqs p.1
  have hne : valuesAt qs p.1 ≠ [] := by
    rw [ne_eq, ← List.length_eq_zero_iff, hperm.length_eq, length_valuesAt, List.count_eq_zero]
    exact fun h => h hmem
  have hslice := slice_mem_boards hp
  show StatAggregator.stat _ (p.1, (valuesAt qs p.1).foldl (fun xs x => xs ++ [x]) []) = _
  rw [foldl_concat, stat_eq hne (List.count_pos_iff.mpr hslice).ne' (lookup_totals htotals hslice),
    statOf_perm hperm]
  rfl

/-! ## Compositions -/

/-- A composition of a slice. -/
def IsComposition (slice : Slice) (key : StatKey) : Bool :=
  decide (key.entityType = .composition ∧ key.slice = slice)

/-- Each board is one composition of its slice. -/
theorem countP_keys (cost : GoString → ℕ) (slice slice' : Slice) (player : PlayerResult) :
    (player.keys cost slice).countP (IsComposition slice') = if slice = slice' then 1 else 0 := by
  have hpairs : ∀ u : MatchUnit,
      (u.items.map (pairKey slice u)).countP (IsComposition slice') = 0 := by
    intro u
    simp [List.countP_map, IsComposition, pairKey, Function.comp_def]
  simp [PlayerResult.keys, List.countP_append, List.countP_map, List.countP_flatMap, hpairs,
    IsComposition, itemKey, Function.comp_def]

/-- The keys that are contributed to, board by board. -/
theorem map_fst_contributions (cost : GoString → ℕ) (batch : List MatchEvent) :
    (contributions cost batch).map Prod.fst
      = (seated batch).flatMap fun b => b.2.keys cost b.1 := by
  unfold contributions
  rw [List.map_flatMap]
  refine congrArg (fun f => (seated batch).flatMap f) (funext fun b => ?_)
  rw [PlayerResult.contributions, List.map_map]
  exact List.map_id _

/-- **Each board of a slice contributes to one of its compositions.** -/
theorem countP_compositions (cost : GoString → ℕ) (batch : List MatchEvent) (slice : Slice) :
    ((contributions cost batch).map Prod.fst).countP (IsComposition slice)
      = (boards batch).count slice := by
  rw [map_fst_contributions, List.countP_flatMap, boards]
  induction seated batch with
  | nil => rfl
  | cons b bs ih =>
    rw [List.map_cons, List.sum_cons, ih, List.map_cons, List.count_cons, Function.comp_apply,
      countP_keys, add_comm]
    simp only [beq_iff_eq]

/-- What a composition is played, out of the boards of its slice: the bound
at one takes no effect. -/
theorem playRate_composition {slice : Slice} {key : StatKey} (h : IsComposition slice key = true) :
    (statOf key (valuesAt (contributions cost batch) key)
        ((boards batch).count key.slice)).playRate
      = ((contributions cost batch).map Prod.fst).count key
        * ((boards batch).count slice : ℚ)⁻¹ := by
  have hslice : key.slice = slice := (of_decide_eq_true h).2
  have hle : ((contributions cost batch).map Prod.fst).count key ≤ (boards batch).count slice := by
    rw [← countP_compositions cost]
    refine List.countP_mono_left fun x _ hx => ?_
    rw [beq_iff_eq.mp hx]
    exact h
  simp only [statOf, length_valuesAt, hslice]
  rw [← div_eq_mul_inv]
  refine min_eq_left (div_le_one_of_le₀ ?_ (Nat.cast_nonneg _))
  exact_mod_cast hle

/-- **The compositions of a slice share its boards.** -/
theorem sum_playRate_compositions (cost : GoString → ℕ) {slice : Slice} (h : slice ∈ boards batch) :
    (((specification cost batch).filter fun s => IsComposition slice s.key).map
      Stat.playRate).sum = 1 := by
  have hpos : ((boards batch).count slice : ℚ) ≠ 0 := by
    exact_mod_cast (List.count_pos_iff.mpr h).ne'
  unfold specification
  rw [List.filter_map, List.map_map]
  set keys := (contributions cost batch).map Prod.fst with hkeys
  have hrates : ∀ key ∈ keys.dedup.filter (IsComposition slice),
      (statOf key (valuesAt (contributions cost batch) key)
        ((boards batch).count key.slice)).playRate
        = keys.count key * ((boards batch).count slice : ℚ)⁻¹ :=
    fun key hkey => playRate_composition (List.mem_filter.mp hkey).2
  have hmap := List.map_congr_left hrates
  have hsum : ((keys.dedup.filter (IsComposition slice)).map fun key => (keys.count key : ℚ)).sum
      = (boards batch).count slice := by
    have hcount := List.sum_map_count_dedup_filter_eq_countP (IsComposition slice) keys
    rw [countP_compositions] at hcount
    rw [← hcount, Nat.cast_list_sum, List.map_map]
    rfl
  calc _ = ((keys.dedup.filter (IsComposition slice)).map fun key =>
            (keys.count key : ℚ) * ((boards batch).count slice : ℚ)⁻¹).sum := congrArg _ hmap
    _ = 1 := by rw [List.sum_map_mul_right, hsum, mul_inv_cancel₀ hpos]

/-! ## Shuffles -/

theorem PlayerResult.Shuffle.contributions_perm {player player' : PlayerResult}
    (h : player.Shuffle player') (slice : Slice) :
    (player.contributions cost slice).Perm (player'.contributions cost slice) := by
  obtain ⟨units, hunits, rfl⟩ := h
  have hitems := (hunits.symm.flatMap_right (·.items)).dedup.map (itemKey slice)
  have hchampions := hunits.symm.map fun unit => (⟨unit.characterId, .champion, slice⟩ : StatKey)
  have hpairs := hunits.symm.flatMap_right fun unit => unit.items.map (pairKey slice unit)
  unfold PlayerResult.contributions PlayerResult.keys
  rw [compositionLabel_perm cost hunits]
  exact ((((hchampions.append hpairs).append hitems).append_right _).append_right _).map _

/-- Related lists give related contributions. -/
theorem flatMap_perm_of_forall₂ {α β : Type} {r : α → α → Prop} {f : α → List β}
    (hf : ∀ a a', r a a' → (f a).Perm (f a')) {l l' : List α} (h : List.Forall₂ r l l') :
    (l.flatMap f).Perm (l'.flatMap f) := by
  induction h with
  | nil => exact .refl _
  | cons hr _ ih => exact (hf _ _ hr).append ih

/-- **A shuffled batch contributes the same**, and has the same boards. -/
theorem Shuffled.perm (h : Shuffled batch batch') (cost : GoString → ℕ) :
    (contributions cost batch).Perm (contributions cost batch') ∧
      (boards batch).Perm (boards batch') := by
  obtain ⟨ms, hms, hshuffles⟩ := h
  have hseated : ∀ {β : Type} (f : Slice → PlayerResult → List β),
      (∀ slice player player', player.Shuffle player' →
        (f slice player).Perm (f slice player')) →
      ((seated batch).flatMap fun b => f b.1 b.2).Perm
        ((seated batch').flatMap fun b => f b.1 b.2) := by
    intro β f hf
    unfold seated
    rw [List.flatMap_assoc, List.flatMap_assoc]
    simp only [List.flatMap_map]
    refine (hms.symm.flatMap_right _).trans (flatMap_perm_of_forall₂ ?_ hshuffles)
    rintro m m' ⟨players, players', hplayers, hunits, rfl⟩
    refine (hplayers.symm.flatMap_right _).trans (flatMap_perm_of_forall₂ ?_ hunits)
    exact hf m.slice
  refine ⟨hseated (fun slice player => player.contributions cost slice)
    fun slice player player' hshuffle => hshuffle.contributions_perm slice, ?_⟩
  unfold boards
  rw [List.map_eq_flatMap, List.map_eq_flatMap]
  exact hseated (fun slice _ => [slice]) fun slice player player' _ => .refl _

/-- The specification depends on the contributions and the boards, in any
order. -/
theorem Shuffled.specification_perm (h : Shuffled batch batch') (cost : GoString → ℕ) :
    (specification cost batch).Perm (specification cost batch') := by
  obtain ⟨hcontributions, hboards⟩ := h.perm cost
  unfold specification
  refine ((hcontributions.map Prod.fst).dedup.map _).trans (List.Perm.of_eq ?_)
  refine List.map_congr_left fun key _ => ?_
  rw [hboards.count_eq, statOf_perm (valuesAt_perm hcontributions key)]

/-- **Aggregation equals its specification and ignores order**: the entries
are those specified, one for each key that occurs; the compositions of a
slice with boards have play rates that sum to one; and shuffling the batch
leaves the entries as they are. -/
theorem aggregation_specified (cost : GoString → ℕ) (batch : List MatchEvent) :
    (aggregated cost batch).Perm (specification cost batch) ∧
      (∀ slice ∈ boards batch,
        (((aggregated cost batch).filter fun s => IsComposition slice s.key).map
          Stat.playRate).sum = 1) ∧
      ∀ batch', Shuffled batch batch' → (aggregated cost batch').Perm (aggregated cost batch) := by
  have hspec := aggregated_perm cost batch
  refine ⟨hspec, fun slice hslice => ?_, fun batch' hshuffled => ?_⟩
  · rw [((hspec.filter _).map _).sum_eq]
    exact sum_playRate_compositions cost hslice
  · exact (aggregated_perm cost batch').trans
      ((hshuffled.specification_perm cost).symm.trans hspec.symm)

end Processor

end TftAnalytics

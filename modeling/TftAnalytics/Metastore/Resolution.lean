import TftAnalytics.Metastore.Helpers.VClock
/-!
# Metastore — what conflict resolution respects

On clocks whose counters are non-negative and whose sum is an `int64`,
`pickNewer` returns the larger of clock sum and sample size, the first
argument on ties (`newerOf_eq`). The pair is a linear order that extends
dominance, so the choice is associative and never falls on an entry
another one strictly dominates, over lists of any length too.
-/

namespace TftAnalytics

namespace Metastore

variable {a b c : StatEntry}

/-- The clock strictly dominates the other: it is behind on no node and
ahead on one, where a node it does not name counts zero. -/
def Dominates (a b : StatEntry) : Prop :=
  (∀ node, count b.clock node ≤ count a.clock node) ∧
    ∃ node, count b.clock node < count a.clock node

/-- **Dominance is a larger sum**, and so a larger rank. -/
theorem Dominates.clockRank_lt (h : Dominates a b) (ha : Clocked a) (hb : Clocked b) :
    clockRank b < clockRank a := by
  obtain ⟨hle, node, hlt⟩ := h
  have hab : vcDominates a.clock b.clock = true := (vcDominates_iff ha).mpr hle
  have hba : vcDominates b.clock a.clock = false := by
    rw [Bool.eq_false_iff]
    intro hback
    exact absurd ((vcDominates_iff hb).mp hback node) (not_le.mpr hlt)
  exact Prod.Lex.toLex_lt_toLex.mpr (Or.inl (clockSum_lt_of_dominates ha hb hab hba))

/-- The winner outranks both. -/
theorem le_clockRank_newerOf (ha : Clocked a) (hb : Clocked b) :
    clockRank a ≤ clockRank (newerOf a b) ∧ clockRank b ≤ clockRank (newerOf a b) := by
  rw [choosesMax_newerOf.rank_pick ha hb]
  exact ⟨le_max_left _ _, le_max_right _ _⟩

/-- A maximum with ties to the left associates. -/
theorem newerOf_assoc (ha : Clocked a) (hb : Clocked b) (hc : Clocked c) :
    newerOf (newerOf a b) c = newerOf a (newerOf b c) := by
  have hab : Clocked (newerOf a b) := choosesMax_newerOf.mem_pick ha hb
  have hbc : Clocked (newerOf b c) := choosesMax_newerOf.mem_pick hb hc
  rw [newerOf_eq hab hc, newerOf_eq ha hbc, newerOf_eq ha hb, newerOf_eq hb hc]
  by_cases h₁ : clockRank a < clockRank b <;> by_cases h₂ : clockRank b < clockRank c
  · rw [if_pos h₁, if_pos h₂, if_pos (h₁.trans h₂)]
  · rw [if_pos h₁, if_neg h₂, if_pos h₁]
  · rw [if_neg h₁, if_pos h₂]
  · -- `c` is no larger than `b`, and `b` no larger than `a`
    have h₃ : ¬ clockRank a < clockRank c :=
      not_lt.mpr ((not_lt.mp h₂).trans (not_lt.mp h₁))
    rw [if_neg h₁, if_neg h₂, if_neg h₁, if_neg h₃]

/-- A fold over a list that is not empty returns an entry of the list that
outranks them all. -/
theorem foldl_pickNewer_spec {l : List StatEntry} (hl : ∀ e ∈ l, Clocked e) (hne : l ≠ []) :
    ∃ w ∈ l, l.foldl (fun o e => pickNewer o (some e)) none = some w ∧
      ∀ e ∈ l, clockRank e ≤ clockRank w := by
  have hsome := isSome_foldl_pickOption newerOf l none
  rw [Option.isSome_none, Bool.false_or, List.isEmpty_eq_false_iff.mpr hne] at hsome
  obtain ⟨w, hw⟩ := Option.isSome_iff_exists.mp hsome
  have hmem : w ∈ l :=
    (mem_or_mem_of_mem_foldl newerOf_choice hw).resolve_left (Option.not_mem_none w)
  -- its rank is the largest in the list
  have hnone : ∀ x ∈ (none : Option StatEntry), x ∈ {e | Clocked e} := by simp
  have hrank := choosesMax_newerOf.optRank_foldl (l := l) hl hnone
  rw [hw, optRank_some, optRank_none, max_eq_right bot_le] at hrank
  refine ⟨w, hmem, by rw [pickNewer_eq_pickOption]; exact hw, fun e he => ?_⟩
  exact WithBot.coe_le_coe.mp (hrank ▸ le_topRank he)

/-- **Conflict resolution respects causality and associates.** The winner is
the larger of clock sum and sample size, the first entry on ties; its clock
is not strictly dominated by the other's, nor, folding over a list that is
not empty, by any in the list. -/
theorem pickNewer_respects_causality (ha : Clocked a) (hb : Clocked b) (hc : Clocked c) :
    pickNewer (some a) (some b) = some (if clockRank a < clockRank b then b else a) ∧
    (∀ w, pickNewer (some a) (some b) = some w → ¬ Dominates a w ∧ ¬ Dominates b w) ∧
    pickNewer (pickNewer (some a) (some b)) (some c)
      = pickNewer (some a) (pickNewer (some b) (some c)) ∧
    ∀ l : List StatEntry, l ≠ [] → (∀ e ∈ l, Clocked e) →
      ∃ w ∈ l, l.foldl (fun o e => pickNewer o (some e)) none = some w ∧
        ∀ e ∈ l, ¬ Dominates e w := by
  refine ⟨?_, ?_, ?_, ?_⟩
  · exact congrArg some (newerOf_eq ha hb)
  · intro w hw
    have hw : newerOf a b = w := Option.some.inj hw
    have hwc : Clocked w := hw ▸ choosesMax_newerOf.mem_pick ha hb
    obtain ⟨hleft, hright⟩ := le_clockRank_newerOf ha hb
    rw [hw] at hleft hright
    exact ⟨fun h => absurd (h.clockRank_lt ha hwc) (not_lt.mpr hleft),
      fun h => absurd (h.clockRank_lt hb hwc) (not_lt.mpr hright)⟩
  · exact congrArg some (newerOf_assoc ha hb hc)
  · intro l hne hl
    obtain ⟨w, hw, hfold, htop⟩ := foldl_pickNewer_spec hl hne
    exact ⟨w, hw, hfold, fun e he h =>
      absurd (h.clockRank_lt (hl e he) (hl w hw)) (not_lt.mpr (htop e he))⟩

/-- An entry with a clock of two nodes. -/
def clockedEntry (m n samples : Int64) : StatEntry :=
  { entityId := ascii "TFT14_Ahri", entityType := ascii "champion", patch := ascii "14.1",
    region := ascii "NA1", tier := ascii "DIAMOND", winRate := 0, avgPlacement := 0,
    playRate := 0, sampleSize := samples,
    clock := some
      { clocks := ⟨[⟨ascii "m", m⟩, ⟨ascii "n", n⟩], by simp [List.NodupKeys, List.keys]; decide⟩
        sorted := by simp [AList.keys, List.keys]; decide } }

/-- Three versions: the first two concurrent and of equal sums, and both
dominated by the third. -/
theorem pickNewer_respects_causality_sample :
    pickNewer (some (clockedEntry 1 2 9)) (some (clockedEntry 2 1 3))
      = some (clockedEntry 1 2 9) ∧
    pickNewer (pickNewer (some (clockedEntry 1 2 9)) (some (clockedEntry 2 1 3)))
        (some (clockedEntry 2 2 1))
      = pickNewer (some (clockedEntry 1 2 9))
        (pickNewer (some (clockedEntry 2 1 3)) (some (clockedEntry 2 2 1))) ∧
    ¬ Dominates (clockedEntry 2 1 3) (clockedEntry 1 2 9) := by
  have h₁ : Clocked (clockedEntry 1 2 9) := by decide
  have h₂ : Clocked (clockedEntry 2 1 3) := by decide
  have h₃ : Clocked (clockedEntry 2 2 1) := by decide
  obtain ⟨hrank, hdominated, hassoc, -⟩ := pickNewer_respects_causality h₁ h₂ h₃
  have hpick : pickNewer (some (clockedEntry 1 2 9)) (some (clockedEntry 2 1 3))
      = some (clockedEntry 1 2 9) := by
    rw [hrank, if_neg (by decide)]
  exact ⟨hpick, hassoc, (hdominated _ hpick).2⟩

end Metastore

end TftAnalytics

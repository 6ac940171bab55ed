import Mathlib.Algebra.Order.Field.Basic
import Mathlib.Logic.Relation
import Mathlib.Tactic.Linarith
import Mathlib.Tactic.Ring
/-!
# Metering — charges against a credit

A meter has a credit that grows with the clock, at no more than `rate` and
never above `cap`, and each charge stamps the log and takes one off it. So
the stamps in any interval are no more than `cap` and what accrues in it.
The credit is the potential: stamps and credit together grow no faster
than the clock allows (`Metered.window`).
-/

namespace TftAnalytics

variable {K : Type*} [Field K] [LinearOrder K]

/-- A clock, a credit, and the stamps of the charges so far. -/
structure Meter (K : Type*) where
  clock : K
  credit : K
  stamps : List K

namespace Meter

/-- The stamps in an interval. -/
def during (s t : K) (stamps : List K) : ℕ := stamps.countP fun r => s ≤ r ∧ r ≤ t

/-- **One move**: the clock goes on and some credit accrues, or one is
charged. -/
inductive Move (cap rate : K) : Meter K → Meter K → Prop
  | accrue {m : Meter K} {now credit : K} : m.clock ≤ now → m.credit ≤ credit → credit ≤ cap →
      credit ≤ m.credit + rate * (now - m.clock) → Move cap rate m ⟨now, credit, m.stamps⟩
  | charge {m : Meter K} : 1 ≤ m.credit →
      Move cap rate m ⟨m.clock, m.credit - 1, m.stamps ++ [m.clock]⟩

/-- **What the moves preserve.** -/
structure Metered (cap rate : K) (m : Meter K) : Prop where
  nonneg : 0 ≤ m.credit
  le_cap : m.credit ≤ cap
  past : ∀ r ∈ m.stamps, r ≤ m.clock
  window : ∀ s t, s ≤ t → m.clock ≤ t →
    (during s t m.stamps : K) + m.credit ≤ cap + rate * (max m.clock s - s)
  bound : ∀ s t, s ≤ t → (during s t m.stamps : K) ≤ cap + rate * (t - s)

omit [Field K] in
theorem during_eq_zero {s t : K} {stamps : List K} (h : ∀ r ∈ stamps, r < s) :
    during s t stamps = 0 := by
  refine List.countP_eq_zero.mpr fun r hr => ?_
  have hlt := h r hr
  simp [not_le.mpr hlt]

omit [Field K] in
theorem during_concat (s t r : K) (stamps : List K) :
    during s t (stamps ++ [r]) = during s t stamps + if s ≤ r ∧ r ≤ t then 1 else 0 := by
  simp only [during, List.countP_append, List.countP_singleton, decide_eq_true_eq]

variable {cap rate : K} {m m' : Meter K}

section

variable [IsStrictOrderedRing K]

/-- A meter without charges. -/
theorem metered_nil (hrate : 0 ≤ rate) {clock credit : K} (h0 : 0 ≤ credit) (hcap : credit ≤ cap) :
    Metered cap rate ⟨clock, credit, []⟩ where
  nonneg := h0
  le_cap := hcap
  past := by simp
  window := by
    intro s t _ _
    have := mul_nonneg hrate (sub_nonneg.mpr (le_max_right clock s))
    simp only [during, List.countP_nil, Nat.cast_zero]
    linarith
  bound := by
    intro s t hst
    have := mul_nonneg hrate (sub_nonneg.mpr hst)
    simp only [during, List.countP_nil, Nat.cast_zero]
    linarith

/-- **One move keeps the bound**: what accrues is paid for by the clock,
and a charge by the credit. -/
theorem Metered.move (h : Metered cap rate m) (hrate : 0 ≤ rate) (hmove : Move cap rate m m') :
    Metered cap rate m' := by
  rcases hmove with ⟨hnow, hgrow, hcap, haccrue⟩ | hcharge
  · rename_i now credit
    refine ⟨h.nonneg.trans hgrow, hcap, fun r hr => (h.past r hr).trans hnow, ?_, h.bound⟩
    intro s t hst hclock
    have hwindow := h.window s t hst (hnow.trans hclock)
    rcases lt_or_ge m.clock s with hbefore | hafter
    · -- nothing was charged since `s`
      have hzero : during s t m.stamps = 0 :=
        during_eq_zero fun r hr => (h.past r hr).trans_lt hbefore
      have := mul_nonneg hrate (sub_nonneg.mpr (le_max_right now s))
      simp only [hzero, Nat.cast_zero]
      linarith
    · rw [max_eq_left hafter] at hwindow
      rw [max_eq_left (hafter.trans hnow)]
      have hsum : rate * (now - s) = rate * (m.clock - s) + rate * (now - m.clock) := by ring
      simp only
      linarith
  · have hcredit : 0 ≤ m.credit - 1 := sub_nonneg.mpr hcharge
    have hle := h.le_cap
    -- a charge is one stamp, paid for by the credit
    have hone : ∀ s t, (during s t (m.stamps ++ [m.clock]) : K) ≤ during s t m.stamps + 1 := by
      intro s t
      rw [during_concat, Nat.cast_add]
      split_ifs <;> simp
    refine ⟨hcredit, by simp only; linarith, ?_, ?_, ?_⟩
    · intro r hr
      rcases List.mem_append.mp hr with hr | hr
      · exact h.past r hr
      · exact (List.mem_singleton.mp hr).le
    · intro s t hst hclock
      have hwindow := h.window s t hst hclock
      have := hone s t
      simp only
      linarith
    · intro s t hst
      rcases lt_or_ge t m.clock with hlater | hclock
      · have hsame : during s t (m.stamps ++ [m.clock]) = during s t m.stamps := by
          rw [during_concat, if_neg fun hr => absurd hr.2 (not_le.mpr hlater), Nat.add_zero]
        rw [hsame]
        exact h.bound s t hst
      · have hwindow := h.window s t hst hclock
        have := hone s t
        have hmax : rate * (max m.clock s - s) ≤ rate * (t - s) :=
          mul_le_mul_of_nonneg_left (sub_le_sub_right (max_le hclock hst) s) hrate
        simp only
        linarith

/-- **Any number of moves.** -/
theorem Metered.moves (h : Metered cap rate m) (hrate : 0 ≤ rate)
    (hmoves : Relation.ReflTransGen (Move cap rate) m m') : Metered cap rate m' := by
  induction hmoves with
  | refl => exact h
  | tail _ hmove ih => exact ih.move hrate hmove

end

end Meter

end TftAnalytics

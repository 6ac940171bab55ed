import TftAnalytics.Ingestion.Model.RateLimiter
import TftAnalytics.Common.Windows
import Mathlib.Algebra.Order.Field.Rat
import Mathlib.Data.List.Induction
import Mathlib.Tactic.Linarith
/-!
# Ingestion — the request budget

Between refills the first `rate` turns of calls acquire, and no others.
Refills are a second apart, so a window of one second meets two periods at
most: it may have the last turns of one quota and the first of the next.
The budget is kept exactly where each quota leaves room for the next one
(`budget_iff`).
-/

namespace TftAnalytics

namespace Ingestion

open Windows

namespace Limited

variable {rate : ℤ} {σ : Limited}

/-- **What holds along every run**: the tokens are what the period has
left of its quota, the first turns of each period are those that acquired,
and periods that are not neighbours lie a second apart. -/
structure Inv (rate : ℤ) (σ : Limited) : Prop where
  rate_eq : σ.limiter.rate = rate
  tokens : σ.limiter.tokens.toNat = rate.toNat - σ.turns.length
  acquired : σ.acquired = granted rate.toNat σ.periods
  sorted : σ.periods.flatten.Pairwise (· ≤ ·)
  past : ∀ a ∈ σ.periods.flatten, a ≤ σ.clock
  apart : Apart 1 σ.periods
  refilled : ∀ a ∈ σ.earlier.dropLast.flatten, a + 1 ≤ σ.clock
  refillAt : ∀ a ∈ σ.earlier.flatten, ∀ awake ∈ σ.refillAt, a + 1 ≤ awake
  started : σ.refillAt = none → σ.earlier = []

theorem inv_init (rate : ℤ) (now : ℚ) : (init rate now).Inv rate where
  rate_eq := rfl
  tokens := rfl
  acquired := by simp [init, periods, granted]
  sorted := by simp [init, periods]
  past := by simp [init, periods]
  apart := trivial
  refilled := by simp [init]
  refillAt := by simp [init]
  started := fun _ => rfl

theorem Inv.sorted_acquired (h : σ.Inv rate) : σ.acquired.Pairwise (· ≤ ·) := by
  rw [h.acquired]
  exact h.sorted.sublist (granted_sublist ..)

/-- A turn goes to the period under way. -/
theorem flatten_turn (σ : Limited) (t : ℚ) :
    (σ.earlier ++ [σ.turns ++ [t]]).flatten = σ.periods.flatten ++ [t] := by
  simp [periods]

/-- **A turn**: the first ones of a period acquire. -/
theorem Inv.turn (h : σ.Inv rate) (l : RateLimiter) (acquired : List ℚ) (finished : List ℕ)
    (wake : ℕ → ℚ) (hrate : l.rate = rate)
    (htokens : l.tokens.toNat = rate.toNat - (σ.turns.length + 1))
    (hacquired : acquired = σ.acquired ++ if σ.turns.length < rate.toNat then [σ.clock] else []) :
    Inv rate { σ with
      limiter := l, acquired := acquired, finished := finished, wake := wake
      turns := σ.turns ++ [σ.clock] } where
  rate_eq := hrate
  tokens := by
    rw [htokens, List.length_append, List.length_singleton]
  acquired := by
    rw [hacquired, h.acquired]
    simp only [periods, granted, List.flatMap_append, List.flatMap_cons, List.flatMap_nil,
      List.append_nil, List.append_assoc]
    -- the turn is granted where the quota of the period is not used up
    congr 1
    split_ifs with hlt
    · rw [List.take_of_length_le (by omega), List.take_of_length_le (by simp; omega)]
    · rw [List.append_nil, List.take_append_of_le_length (by omega)]
  sorted := by
    simp only [periods]
    rw [flatten_turn, List.pairwise_append]
    refine ⟨h.sorted, List.pairwise_singleton .., fun a ha b hb => ?_⟩
    rw [List.mem_singleton.mp hb]
    exact h.past a ha
  past := by
    simp only [periods]
    rw [flatten_turn]
    intro a ha
    rcases List.mem_append.mp ha with ha | ha
    · exact h.past a ha
    · exact (List.mem_singleton.mp ha).le
  apart := by
    obtain ⟨hearlier, hlast⟩ := (apart_concat_iff σ.earlier σ.turns).mp h.apart
    refine (apart_concat_iff _ _).mpr ⟨hearlier, fun a ha b hb => ?_⟩
    rcases List.mem_append.mp hb with hb | hb
    · exact hlast a ha b hb
    · rw [List.mem_singleton.mp hb]
      exact h.refilled a ha
  refilled := h.refilled
  refillAt := h.refillAt
  started := h.started

/-- **A refill**, a second or more after the one before. -/
theorem Inv.refill (h : σ.Inv rate) {awake : ℚ} (hawake : σ.refillAt = some awake)
    (hle : awake ≤ σ.clock) :
    Inv rate { σ with
      limiter := σ.limiter.refill
      refillAt := some (σ.clock + 1)
      earlier := σ.earlier ++ [σ.turns]
      turns := [] } where
  rate_eq := h.rate_eq
  tokens := congrArg Int.toNat h.rate_eq
  acquired := by
    rw [h.acquired]
    simp [periods, granted]
  sorted := by
    simpa [periods] using h.sorted
  past := by
    simpa [periods] using h.past
  apart := (apart_concat_iff _ _).mpr ⟨h.apart, fun _ _ b hb => by cases hb⟩
  refilled := by
    intro a ha
    rw [List.dropLast_concat] at ha
    exact (h.refillAt a ha awake hawake).trans hle
  refillAt := by
    -- the next refill is a second behind every turn so far
    intro a ha awake' hawake'
    obtain rfl := Option.some.inj hawake'
    exact add_le_add_left (h.past a ha) 1
  started := fun hnone => by cases hnone

/-- **One event.** -/
theorem Inv.step (h : σ.Inv rate) (ev : LimitedEvent) : (σ.step ev).Inv rate := by
  rcases ev with d | - | - | call
  · have hlater : σ.clock ≤ σ.clock + d := le_add_of_nonneg_right d.2
    exact { h with
      past := fun a ha => (h.past a ha).trans hlater
      refilled := fun a ha => (h.refilled a ha).trans hlater }
  · simp only [Limited.step]
    rcases hawake : σ.refillAt with - | awake
    · refine { h with refillAt := ?_, started := fun hnone => by cases hnone }
      intro a ha
      -- before the start there is no turn
      rw [h.started hawake] at ha
      cases ha
    · exact h
  · simp only [Limited.step]
    rcases hawake : σ.refillAt with - | awake
    · exact h
    · simp only
      split_ifs with hsleeps
      · exact h
      · exact h.refill hawake (not_lt.mp hsleeps)
  · have htokens := h.tokens
    by_cases hasleep : call ∈ σ.finished ∨ σ.clock < σ.wake call
    · simp only [Limited.step, if_pos hasleep]
      exact h
    -- a turn acquires or goes to sleep, and counts as a turn in both cases
    · by_cases hpos : σ.limiter.tokens > 0
      · have hturn : σ.limiter.acquireTurn
            = ({ σ.limiter with tokens := σ.limiter.tokens - 1 }, true) := if_pos hpos
        simp only [Limited.step, if_neg hasleep, hturn, if_true]
        refine h.turn _ _ _ _ h.rate_eq ?_ ?_
        · simp only
          omega
        · rw [if_pos (by omega)]
      · have hturn : σ.limiter.acquireTurn = (σ.limiter, false) := if_neg hpos
        simp only [Limited.step, if_neg hasleep, hturn, Bool.false_eq_true, if_false]
        refine h.turn _ _ _ _ h.rate_eq ?_ ?_
        · omega
        · rw [if_neg (by omega), List.append_nil]

/-- **Along every run.** -/
theorem inv_run (rate : ℤ) (now : ℚ) (evs : List LimitedEvent) : (run rate now evs).Inv rate := by
  unfold run
  induction evs using List.reverseRecOn with
  | nil => exact inv_init rate now
  | append_singleton evs ev ih =>
    rw [List.foldl_append]
    exact ih.step ev

end Limited

/-! ## Main results -/

/-- **When the budget is kept.** In a run of any calls and refills, no
window of one second sees more than `rate` acquisitions, at any time, if
and only if each refill period leaves room for the next: with `u` of its
quota left, the `(u + i)`-th turn of the next period comes a second or more
after its own `i`-th. -/
theorem budget_iff (rate : ℤ) (now : ℚ) (evs : List LimitedEvent) :
    (∀ s, within 1 s (Limited.run rate now evs).acquired ≤ rate.toNat) ↔
      (Limited.run rate now evs).periods.IsChain (Spaced rate.toNat 1) := by
  have hinv := Limited.inv_run rate now evs
  rw [within_le_iff hinv.sorted_acquired, hinv.acquired, gapped_granted_iff hinv.apart]

/-- **A refill between two calls**: with one request to a second, the
second is granted a fifth of a second after the first. -/
theorem not_budget :
    (Limited.run 1 0 [.start, .advance (9 / 10), .turn 0, .advance (1 / 10), .refill,
        .advance (1 / 10), .turn 1]).acquired = [9 / 10, 11 / 10] ∧
      ¬ ∀ s, within 1 s (Limited.run 1 0 [.start, .advance (9 / 10), .turn 0, .advance (1 / 10),
        .refill, .advance (1 / 10), .turn 1]).acquired ≤ (1 : ℤ).toNat :=
  ⟨by decide +kernel, fun h => absurd (h (9 / 10)) (by decide +kernel)⟩

/-- **Twice the budget is kept** by every run. -/
theorem within_le_twice (rate : ℤ) (now : ℚ) (evs : List LimitedEvent) (s : ℚ) :
    within 1 s (Limited.run rate now evs).acquired ≤ 2 * rate.toNat := by
  have hinv := Limited.inv_run rate now evs
  refine (within_le_iff (w := 1) hinv.sorted_acquired).mpr ?_ s
  rw [hinv.acquired]
  exact gapped_granted_twice hinv.apart

end Ingestion

end TftAnalytics

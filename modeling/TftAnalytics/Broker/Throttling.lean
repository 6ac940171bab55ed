import TftAnalytics.Broker.Model.TokenBucket
import TftAnalytics.Common.Metering
import Mathlib.Data.List.Induction
/-!
# Broker — the bound of the token bucket

The bucket is a meter: a refill accrues at the rate, up to the capacity,
and a call that returns is a charge. So in any interval no more calls
return than the capacity and what is refilled in it.
-/

namespace TftAnalytics

namespace Broker

open Meter

/-- A throttle as a meter: the clock of the bucket is its last reading. -/
def Throttle.meter (σ : Throttle) : Meter ℚ := ⟨σ.bucket.last, σ.bucket.tokens, σ.returns⟩

/-- A refill as a move. -/
theorem TokenBucket.refill_spec (b : TokenBucket) {now : ℚ} (hlast : b.last ≤ now)
    (hrate : 0 ≤ b.rate) (hcap : b.tokens ≤ b.capacity) :
    b.tokens ≤ (b.refill now).tokens ∧ (b.refill now).tokens ≤ b.capacity ∧
      (b.refill now).tokens ≤ b.tokens + b.rate * (now - b.last) := by
  have hgrow : 0 ≤ (now - b.last) * b.rate := mul_nonneg (by linarith) hrate
  simp only [refill]
  split_ifs with hfull
  · exact ⟨hcap, le_rfl, by linarith⟩
  · exact ⟨by linarith, by linarith, by linarith⟩

namespace Throttle

variable {ratePerSec now : ℚ} {σ : Throttle}

/-- **What holds along every run.** -/
structure Inv (ratePerSec : ℚ) (σ : Throttle) : Prop where
  rate_eq : σ.bucket.rate = ratePerSec
  capacity_eq : σ.bucket.capacity = ratePerSec
  last_le : σ.bucket.last ≤ σ.clock
  metered : Metered ratePerSec ratePerSec σ.meter

theorem inv_start (hrate : 0 ≤ ratePerSec) (now : ℚ) : (start ratePerSec now).Inv ratePerSec :=
  ⟨rfl, rfl, le_rfl, metered_nil hrate hrate le_rfl⟩

/-- **One event**: time alone does nothing to the meter, and a turn is an
accrual, with a charge where it returns. -/
theorem Inv.step (h : σ.Inv ratePerSec) (hrate : 0 ≤ ratePerSec) (ev : ThrottleEvent) :
    (σ.step ev).Inv ratePerSec := by
  rcases ev with d | call
  · exact ⟨h.rate_eq, h.capacity_eq, h.last_le.trans (le_add_of_nonneg_right d.2), h.metered⟩
  simp only [Throttle.step]
  split_ifs with hasleep
  · exact h
  obtain ⟨hgrow, hcap, haccrue⟩ := σ.bucket.refill_spec h.last_le (by rw [h.rate_eq]; exact hrate)
    (by rw [h.capacity_eq]; exact h.metered.le_cap)
  rw [h.capacity_eq] at hcap
  rw [h.rate_eq] at haccrue
  have hmove : Move ratePerSec ratePerSec σ.meter
      ⟨σ.clock, (σ.bucket.refill σ.clock).tokens, σ.returns⟩ :=
    Move.accrue h.last_le hgrow hcap haccrue
  have hmetered := h.metered.move hrate hmove
  -- the turn takes a token, or asks for a sleep
  by_cases htoken : (σ.bucket.refill σ.clock).tokens ≥ 1
  · have hturn : σ.bucket.turn σ.clock
        = ({ σ.bucket.refill σ.clock with tokens := (σ.bucket.refill σ.clock).tokens - 1 }, none) :=
      if_pos htoken
    simp only [hturn]
    exact ⟨h.rate_eq, h.capacity_eq, le_rfl, hmetered.move hrate (Move.charge htoken)⟩
  · have hturn : σ.bucket.turn σ.clock
        = (σ.bucket.refill σ.clock, some (σ.bucket.refill σ.clock).wait) := if_neg htoken
    simp only [hturn]
    exact ⟨h.rate_eq, h.capacity_eq, le_rfl, hmetered⟩

/-- **Along every run.** -/
theorem inv_run (hrate : 0 ≤ ratePerSec) (now : ℚ) (evs : List ThrottleEvent) :
    (run ratePerSec now evs).Inv ratePerSec := by
  unfold run
  induction evs using List.reverseRecOn with
  | nil => exact inv_start hrate now
  | append_singleton evs ev ih =>
    rw [List.foldl_append]
    exact ih.step hrate ev

end Throttle

/-! ## Main results -/

/-- **The bound of the token bucket.** In every run of calls, with their
sleeps and turns in any order, the tokens stay between nothing and the
capacity, and in no interval do more calls return than the capacity and
what is refilled in it. -/
theorem tokenBucket_bound (ratePerSec now : ℚ) (hrate : 0 ≤ ratePerSec)
    (evs : List ThrottleEvent) :
    0 ≤ (Throttle.run ratePerSec now evs).bucket.tokens ∧
      (Throttle.run ratePerSec now evs).bucket.tokens
        ≤ (Throttle.run ratePerSec now evs).bucket.capacity ∧
      ∀ s t, s ≤ t → (during s t (Throttle.run ratePerSec now evs).returns : ℚ)
        ≤ (Throttle.run ratePerSec now evs).bucket.capacity
          + (Throttle.run ratePerSec now evs).bucket.rate * (t - s) := by
  have hinv := Throttle.inv_run hrate now evs
  refine ⟨hinv.metered.nonneg, ?_, fun s t hst => ?_⟩
  · rw [hinv.capacity_eq]
    exact hinv.metered.le_cap
  · rw [hinv.capacity_eq, hinv.rate_eq]
    exact hinv.metered.bound s t hst

/-- The bucket of a subscriber, with two calls at once. -/
theorem tokenBucket_bound_consumer :
    (during 0 0 (Throttle.run consumerRateLimit 0 [.turn 0, .turn 1]).returns : ℚ)
      ≤ (Throttle.run consumerRateLimit 0 [.turn 0, .turn 1]).bucket.capacity
        + (Throttle.run consumerRateLimit 0 [.turn 0, .turn 1]).bucket.rate * (0 - 0) :=
  (tokenBucket_bound consumerRateLimit 0 (by decide) [.turn 0, .turn 1]).2.2 0 0 le_rfl

end Broker

end TftAnalytics

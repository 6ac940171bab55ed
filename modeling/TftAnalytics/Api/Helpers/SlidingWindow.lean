import TftAnalytics.Api.Model.SlidingWindow
import TftAnalytics.Common.Keyed
import TftAnalytics.Common.Eviction
import Mathlib.Algebra.Order.Floor.Ring
import Mathlib.Tactic.Linarith
/-!
# API — the sliding window, key by key

A call changes the deque of its key alone, and a prune deletes deques that
are empty, which a `defaultdict` gives back. So the keys are machines of
their own, and one deque is what a window retains of the calls that were
allowed.
-/

namespace TftAnalytics

namespace Api

open Eviction

variable {K : Type}

section Keys

variable [Ring K] [LinearOrder K] [FloorRing K]

/-- A call on the deque of its key. -/
def onDeque (dq : List K) (now : K) (limit : ℤ) (window : K) : List K × Option (Bool × ℤ) :=
  let dq := dq.dropWhile (· < now - window)
  if limit ≤ dq.length then
    (dq, dq.head?.map fun first => (false, max 1 (toInt (window - (now - first)) + 1)))
  else (dq ++ [now], some (true, 0))

/-- The keys are different. -/
def SlidingWindow.Distinct (s : SlidingWindow K) : Prop := (s.hits.map Prod.fst).Nodup

omit [Ring K] [LinearOrder K] [FloorRing K] in
theorem prune_nodup {hits : List (GoString × List K)} (h : (hits.map Prod.fst).Nodup) :
    ((SlidingWindow.prune hits).map Prod.fst).Nodup := by
  unfold SlidingWindow.prune
  split_ifs
  · exact (List.filter_sublist.map _).nodup h
  · exact h

omit [Ring K] [LinearOrder K] [FloorRing K] in
/-- **A prune is not seen.** -/
theorem held_prune {hits : List (GoString × List K)} (h : (hits.map Prod.fst).Nodup)
    (key : GoString) : held [] (SlidingWindow.prune hits) key = held [] hits key := by
  unfold SlidingWindow.prune
  split_ifs
  · exact held_filter (q := fun dq => !dq.isEmpty) h (fun dq hdq => by simpa using hdq) key
  · rfl

/-- **A call**: its answer and the deques after it. -/
theorem allow_spec {s : SlidingWindow K} (h : s.Distinct) (now : K) (key : GoString) (limit : ℤ)
    (window : K) :
    (s.allow now key limit window).1.Distinct ∧
      (s.allow now key limit window).2 = (onDeque (held [] s.hits key) now limit window).2 ∧
      ∀ k, held [] (s.allow now key limit window).1.hits k
        = if key = k then (onDeque (held [] s.hits key) now limit window).1
          else held [] s.hits k := by
  have hevicted := nodup_keys_upsert [] (·.dropWhile (· < now - window)) key h
  have hadded := nodup_keys_upsert [] (· ++ [now]) key hevicted
  unfold SlidingWindow.allow onDeque
  dsimp only
  rw [held_upsert, if_pos rfl]
  split_ifs with hfull
  · refine ⟨hevicted, rfl, fun k => ?_⟩
    rw [held_upsert]
    split_ifs with hk
    · rw [hk]
    · rfl
  · refine ⟨prune_nodup hadded, rfl, fun k => ?_⟩
    rw [held_prune hadded, held_upsert, held_upsert]
    split_ifs with hk
    · rw [hk]
    · rfl

/-- The deque of a key as a machine, which reports the answers. -/
def deques (limit : GoString → ℤ) (window : GoString → K) :
    Machine (List K) (Call K) (Call K × Option (Bool × ℤ)) where
  next dq c := (onDeque dq c.time (limit c.key) (window c.key)).1
  report dq c := some (c, (onDeque dq c.time (limit c.key) (window c.key)).2)

variable (limit : GoString → ℤ) (window : GoString → K)

theorem answers_eq {s : SlidingWindow K} (h : s.Distinct) (calls : List (Call K)) :
    (answers limit window s calls).map (fun e => (e.1.key, e))
      = (deques limit window).keyedReports (held [] s.hits) (calls.map fun c => (c.key, c)) := by
  induction calls generalizing s with
  | nil => rfl
  | cons c calls ih =>
    obtain ⟨hdistinct, hanswer, hheld⟩ := allow_spec h c.time c.key (limit c.key) (window c.key)
    have hstates : (deques limit window).keyedNext (held [] s.hits) (c.key, c)
        = held [] (s.allow c.time c.key (limit c.key) (window c.key)).1.hits := by
      funext k
      rw [hheld, Machine.keyedNext_apply]
      split_ifs with hk
      · rw [← hk]
        rfl
      · rfl
    rw [answers, List.map_cons, List.map_cons, Machine.keyedReports, ih hdistinct, hstates, hanswer]
    rfl

/-- **The answers to the calls for a key** are those of its deque. -/
theorem answers_filter {s : SlidingWindow K} (h : s.Distinct) (calls : List (Call K))
    (key : GoString) :
    (answers limit window s calls).filter (fun e => e.1.key = key)
      = (deques limit window).reports (held [] s.hits key)
          (calls.filter fun c => c.key = key) := by
  rw [← valuesAt_map_key (fun e : Call K × Option (Bool × ℤ) => e.1.key), answers_eq _ _ h,
    Machine.valuesAt_keyedReports, valuesAt_map_key]

end Keys

/-! ## One key -/

/-- The times of the calls for a key that were allowed. -/
def allowedTimes (log : List (Call K × Option (Bool × ℤ))) (key : GoString) : List K :=
  (log.filter fun e => e.1.key = key ∧ e.2.map Prod.fst = some true).map (·.1.time)

theorem allowedTimes_append (log log' : List (Call K × Option (Bool × ℤ))) (key : GoString) :
    allowedTimes (log ++ log') key = allowedTimes log key ++ allowedTimes log' key := by
  unfold allowedTimes
  rw [List.filter_append, List.map_append]

theorem allowedTimes_filter (log : List (Call K × Option (Bool × ℤ))) (key : GoString) :
    allowedTimes (log.filter fun e => e.1.key = key) key = allowedTimes log key := by
  unfold allowedTimes
  rw [List.filter_filter]
  congr 1
  refine List.filter_congr fun e _ => ?_
  by_cases h : e.1.key = key <;> simp [h]

variable [Field K] [LinearOrder K] [IsStrictOrderedRing K] [FloorRing K]

/-- Rounding takes less than one away. -/
theorem lt_toInt_add_one (x : K) : x < toInt x + 1 := by
  unfold toInt
  split_ifs
  · exact Int.lt_floor_add_one x
  · exact (Int.le_ceil x).trans_lt (lt_add_one _)

variable {now t window : K} {limit : ℤ} {stamps dq : List K}

/-- **Room in the window**: the call is allowed. -/
theorem onDeque_of_lt (h : Retained window now stamps dq) (hle : now ≤ t)
    (hroom : (inside window t stamps : ℤ) < limit) :
    onDeque dq t limit window = (dq.dropWhile (· < t - window) ++ [t], some (true, 0)) := by
  unfold onDeque
  dsimp only
  rw [h.length_evict hle, if_neg (not_le.mpr hroom)]

/-- **A full window**: the call is refused until its first stamp has left
it. -/
theorem onDeque_of_le (h : Retained window now stamps dq) (hle : now ≤ t) (hlimit : 1 ≤ limit)
    (hfull : limit ≤ inside window t stamps) :
    ∃ first rest, ∃ r : ℤ, dq.dropWhile (· < t - window) = first :: rest ∧
      onDeque dq t limit window = (first :: rest, some (false, r)) ∧ first < t + r - window := by
  have hlen := h.length_evict hle
  rcases hdq : dq.dropWhile (· < t - window) with _ | ⟨first, rest⟩
  · rw [hdq, List.length_nil] at hlen
    omega
  · refine ⟨first, rest, max 1 (toInt (window - (t - first)) + 1), rfl, ?_, ?_⟩
    · unfold onDeque
      dsimp only
      rw [hlen, if_pos hfull, hdq]
      rfl
    · have hretry := lt_toInt_add_one (window - (t - first))
      have hmax : ((toInt (window - (t - first)) + 1 : ℤ) : K)
          ≤ ((max 1 (toInt (window - (t - first)) + 1) : ℤ) : K) :=
        Int.cast_le.mpr (le_max_right _ _)
      push_cast at hmax ⊢
      linarith

end Api

end TftAnalytics

import Mathlib.Algebra.Order.Group.Defs
import Mathlib.Algebra.Order.Group.Unbundled.Basic
import Mathlib.Data.List.TakeWhile
/-!
# Common — stamps evicted from a window

A deque of time stamps that drops from its front what has left a window of
width `w` holds what a window that ends now has of all stamps, and so the
length of the deque is their number.
-/

namespace TftAnalytics

namespace Eviction

variable {K : Type} [AddCommGroup K] [LinearOrder K] {w : K}

/-- The stamps in a window that ends at `t`, both ends with it. -/
def inside (w t : K) (stamps : List K) : ℕ := stamps.countP fun x => t - w ≤ x ∧ x ≤ t

/-- What a deque retains of all stamps at some time: those that it has
dropped had left the window by then. -/
structure Retained (w now : K) (stamps deque : List K) : Prop where
  sorted : stamps.Pairwise (· ≤ ·)
  past : ∀ x ∈ stamps, x ≤ now
  dropped : ∃ old, stamps = old ++ deque ∧ ∀ x ∈ old, x < now - w

theorem retained_nil (w now : K) : Retained w now [] [] where
  sorted := List.Pairwise.nil
  past := fun _ h => absurd h List.not_mem_nil
  dropped := ⟨[], rfl, fun _ h => absurd h List.not_mem_nil⟩

omit [AddCommGroup K] in
/-- Of sorted stamps, what is left behind a cutoff is not below it. -/
theorem le_of_mem_dropWhile {c : K} {l : List K} (hsorted : l.Pairwise (· ≤ ·)) :
    ∀ x ∈ l.dropWhile (· < c), c ≤ x := by
  intro x hx
  rcases hl : l.dropWhile (· < c) with _ | ⟨y, ys⟩
  · rw [hl] at hx
    cases hx
  · have hy : c ≤ y := by
      have hhead := List.head?_dropWhile_not (· < c) l
      rw [hl] at hhead
      simpa using hhead
    have hpair := hsorted.sublist (List.dropWhile_sublist (p := fun x => decide (x < c)) (l := l))
    rw [hl] at hx hpair
    rcases List.mem_cons.mp hx with rfl | hx
    · exact hy
    · exact hy.trans ((List.pairwise_cons.mp hpair).1 x hx)

variable {now t : K} {stamps deque : List K}

theorem Retained.later [IsOrderedAddMonoid K] (h : Retained w now stamps deque) (hle : now ≤ t) :
    Retained w t stamps deque := by
  obtain ⟨old, hsplit, hold⟩ := h.dropped
  exact ⟨h.sorted, fun x hx => (h.past x hx).trans hle, old, hsplit,
    fun x hx => (hold x hx).trans_le (sub_le_sub_right hle w)⟩

/-- **Later on** more has left the window. -/
theorem Retained.evict [IsOrderedAddMonoid K] (h : Retained w now stamps deque) (hle : now ≤ t) :
    Retained w t stamps (deque.dropWhile (· < t - w)) := by
  obtain ⟨old, hsplit, hold⟩ := (h.later hle).dropped
  refine ⟨h.sorted, (h.later hle).past, old ++ deque.takeWhile (· < t - w), ?_, fun x hx => ?_⟩
  · rw [List.append_assoc, List.takeWhile_append_dropWhile, hsplit]
  · rcases List.mem_append.mp hx with hx | hx
    · exact hold x hx
    · have hlt := List.mem_takeWhile_imp hx
      exact of_decide_eq_true hlt

/-- **What is retained is what the window has.** -/
theorem Retained.length_evict [IsOrderedAddMonoid K] (h : Retained w now stamps deque)
    (hle : now ≤ t) : (deque.dropWhile (· < t - w)).length = inside w t stamps := by
  obtain ⟨old, hsplit, hold⟩ := (h.evict hle).dropped
  have hsorted : deque.Pairwise (· ≤ ·) := by
    obtain ⟨old', hsplit', -⟩ := h.dropped
    exact h.sorted.sublist (hsplit' ▸ List.sublist_append_right old' deque)
  have hout : old.countP (fun x => decide (t - w ≤ x ∧ x ≤ t)) = 0 := by
    refine List.countP_eq_zero.mpr fun x hx => ?_
    simp [not_le.mpr (hold x hx)]
  have hin : (deque.dropWhile (· < t - w)).countP (fun x => decide (t - w ≤ x ∧ x ≤ t))
      = (deque.dropWhile (· < t - w)).length := by
    refine List.countP_eq_length.mpr fun x hx => decide_eq_true ⟨?_, ?_⟩
    · exact le_of_mem_dropWhile hsorted x hx
    · refine (h.past x ?_).trans hle
      rw [hsplit]
      exact List.mem_append_right _ hx
  unfold inside
  conv_rhs => rw [hsplit, List.countP_append, hout, hin, Nat.zero_add]

/-- A stamp at the end counts where the window reaches it. -/
theorem inside_concat (w t : K) (stamps : List K) (x : K) :
    inside w t (stamps ++ [x]) = inside w t stamps + if t - w ≤ x ∧ x ≤ t then 1 else 0 := by
  unfold inside
  rw [List.countP_append, List.countP_singleton]
  simp

/-- **A stamp now.** -/
theorem Retained.push (h : Retained w t stamps deque) :
    Retained w t (stamps ++ [t]) (deque ++ [t]) := by
  obtain ⟨old, hsplit, hold⟩ := h.dropped
  refine ⟨?_, fun x hx => ?_, old, by rw [hsplit, List.append_assoc], hold⟩
  · refine List.pairwise_append.mpr ⟨h.sorted, List.pairwise_singleton _ _, fun a ha b hb => ?_⟩
    rw [List.mem_singleton.mp hb]
    exact h.past a ha
  · rcases List.mem_append.mp hx with hx | hx
    · exact h.past x hx
    · exact (List.mem_singleton.mp hx).le

end Eviction

end TftAnalytics

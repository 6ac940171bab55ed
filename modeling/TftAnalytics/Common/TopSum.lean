import Mathlib.Algebra.Order.BigOperators.Group.List
import Mathlib.Data.List.Forall2
import Mathlib.Data.List.Sort
/-!
# Common — the sum of the largest

The sum of the `k` largest elements of a list is the largest sum of at most
`k` of them, if none is negative. So it depends on no order, and does not
fall when elements grow or more come in.
-/

namespace TftAnalytics

variable {α : Type*} [AddCommMonoid α] [LinearOrder α]

/-- The sum of the `k` largest elements. -/
def topSum (k : ℕ) (l : List α) : α := ((l.insertionSort fun a b => b ≤ a).take k).sum

omit [AddCommMonoid α] in
theorem pairwise_descending (l : List α) :
    (l.insertionSort fun a b => b ≤ a).Pairwise fun a b => b ≤ a := by
  have : Std.Total fun a b : α => b ≤ a := ⟨fun a b => le_total b a⟩
  have : IsTrans α fun a b => b ≤ a := ⟨fun _ _ _ hab hbc => hbc.trans hab⟩
  exact List.pairwise_insertionSort _ l

variable [IsOrderedAddMonoid α]

/-- Of a descending list the first elements have the largest sum. -/
theorem sum_le_sum_take {l : List α} (hsorted : l.Pairwise fun a b => b ≤ a)
    (hpos : ∀ a ∈ l, 0 ≤ a) :
    ∀ {k : ℕ} {s : List α}, s.Sublist l → s.length ≤ k → s.sum ≤ (l.take k).sum := by
  induction l with
  | nil =>
    intro k s hs _
    rw [List.sublist_nil.mp hs, List.take_nil]
  | cons x l ih =>
    obtain ⟨htop, hsorted⟩ := List.pairwise_cons.mp hsorted
    have hpos' : ∀ a ∈ l, 0 ≤ a := fun a ha => hpos a (List.mem_cons_of_mem x ha)
    intro k s hs hlen
    cases k with
    | zero => rw [List.eq_nil_of_length_eq_zero (Nat.le_zero.mp hlen), List.take_zero]
    | succ k =>
      rw [List.take_succ_cons, List.sum_cons]
      rcases List.sublist_cons_iff.mp hs with hs | ⟨r, rfl, hr⟩
      · -- the first element is no smaller than one of them
        cases s with
        | nil =>
          have hrest : 0 ≤ (l.take k).sum :=
            List.sum_nonneg fun a ha => hpos' a (List.mem_of_mem_take ha)
          exact add_nonneg (hpos x List.mem_cons_self) hrest
        | cons y s =>
          have hy : y ≤ x := htop y (hs.subset List.mem_cons_self)
          rw [List.sum_cons]
          exact add_le_add hy
            (ih hsorted hpos' ((List.sublist_cons_self y s).trans hs) (Nat.le_of_succ_le_succ hlen))
      · -- or it is one of them
        rw [List.sum_cons]
        exact add_le_add_right (ih hsorted hpos' hr (Nat.le_of_succ_le_succ hlen)) x

/-- **The largest sum** of at most `k` elements. -/
theorem sum_le_topSum {l s : List α} (hpos : ∀ a ∈ l, 0 ≤ a) (hs : s.Subperm l) {k : ℕ}
    (hlen : s.length ≤ k) : s.sum ≤ topSum k l := by
  have hperm := List.perm_insertionSort (fun a b : α => b ≤ a) l
  obtain ⟨r, hr, hsub⟩ := hperm.symm.subperm_left.mp hs
  rw [← hr.sum_eq]
  exact sum_le_sum_take (pairwise_descending l) (fun a ha => hpos a (hperm.mem_iff.mp ha)) hsub
    (hr.length_eq.trans_le hlen)

/-- **It does not fall** when elements grow and more come in. -/
theorem topSum_mono {l s l' : List α} (hgrow : List.Forall₂ (· ≤ ·) l s) (hs : s.Subperm l')
    (hpos : ∀ a ∈ l', 0 ≤ a) (k : ℕ) : topSum k l ≤ topSum k l' := by
  -- the elements that those in front have grown into
  obtain ⟨r, hgrow, hr⟩ :=
    List.perm_comp_forall₂ (List.perm_insertionSort (fun a b : α => b ≤ a) l) hgrow
  calc topSum k l ≤ (r.take k).sum := (List.forall₂_take k hgrow).sum_le_sum
    _ ≤ topSum k l' := by
      refine sum_le_topSum hpos ?_ (List.length_take_le k r)
      exact (List.take_sublist k r).subperm.trans (hr.subperm.trans hs)

theorem topSum_nonneg {l : List α} (hpos : ∀ a ∈ l, 0 ≤ a) (k : ℕ) :
    0 ≤ topSum k l :=
  sum_le_topSum hpos List.nil_subperm (Nat.zero_le k)

end TftAnalytics

import Mathlib.Algebra.Order.Group.Defs
import Mathlib.Data.List.Chain
import Mathlib.Order.Basic
/-!
# Windows — how many stamps an interval can have

Of sorted stamps, no window of width `w` has more than `n` exactly where
the `n`-th stamp behind each comes `w` later (`within_le_iff`). Where the
stamps are the first `n` of each of several periods, and periods that are
not neighbours lie `w` apart, only neighbours have to be looked at
(`gapped_granted_iff`).
-/

namespace TftAnalytics

namespace Windows

variable {K : Type*} [AddCommGroup K] [LinearOrder K] {w : K} {n : ℕ}

/-- The stamps in a window, its end left out. -/
def within (w s : K) (l : List K) : ℕ := l.countP fun x => s ≤ x ∧ x < s + w

/-- **The `n`-th stamp behind each comes `w` later.** -/
def Gapped (n : ℕ) (w : K) (l : List K) : Prop :=
  ∀ i a b, l[i]? = some a → l[i + n]? = some b → a + w ≤ b

/-! ## One list -/

theorem Gapped.tail {x : K} {l : List K} (h : Gapped n w (x :: l)) : Gapped n w l := by
  intro i a b ha hb
  refine h (i + 1) a b ha ?_
  rw [show i + 1 + n = i + n + 1 by omega]
  exact hb

/-- A window that has the head has none of what is `n` places behind it. -/
theorem within_le_of_head [IsOrderedAddMonoid K] {x s : K} {l : List K}
    (hsorted : (x :: l).Pairwise (· ≤ ·)) (h : Gapped n w (x :: l)) (hx : s ≤ x) :
    within w s (x :: l) ≤ n := by
  have hlate : within w s ((x :: l).drop n) = 0 := by
    refine List.countP_eq_zero.mpr fun b hb => ?_
    obtain ⟨j, hj⟩ := List.mem_iff_getElem?.mp hb
    rw [List.getElem?_drop] at hj
    -- the stamp `n` places behind the head, and those behind it
    have hlt : n < (x :: l).length := by
      have := (List.getElem?_eq_some_iff.mp hj).1
      omega
    have hfirst : x + w ≤ (x :: l)[n] :=
      h 0 x _ rfl (by rw [Nat.zero_add]; exact List.getElem?_eq_getElem hlt)
    have hle : (x :: l)[n] ≤ b := by
      obtain ⟨hbound, rfl⟩ := List.getElem?_eq_some_iff.mp hj
      rcases Nat.eq_zero_or_pos j with rfl | hpos
      · exact le_rfl
      · exact List.pairwise_iff_getElem.mp hsorted _ _ hlt hbound (by omega)
    have hend : s + w ≤ b := (add_le_add_left hx w).trans (hfirst.trans hle)
    simp [not_lt.mpr hend]
  have hsplit : within w s (x :: l)
      = within w s ((x :: l).take n) + within w s ((x :: l).drop n) := by
    unfold within
    rw [← List.countP_append, List.take_append_drop]
  have hlen := List.countP_le_length (p := fun y => decide (s ≤ y ∧ y < s + w))
    (l := (x :: l).take n)
  rw [List.length_take] at hlen
  unfold within at hsplit hlate ⊢
  omega

/-- **No window has more than `n` stamps** exactly where the `n`-th stamp
behind each comes `w` later. -/
theorem within_le_iff [IsOrderedAddMonoid K] {l : List K} (hsorted : l.Pairwise (· ≤ ·)) :
    (∀ s, within w s l ≤ n) ↔ Gapped n w l := by
  constructor
  · intro h i a b ha hb
    by_contra hnear
    -- the stamps from `a` to `b` are one too many
    obtain ⟨hi, hia⟩ := List.getElem?_eq_some_iff.mp ha
    obtain ⟨hj, hjb⟩ := List.getElem?_eq_some_iff.mp hb
    have hmono : ∀ j k (hj : j < l.length) (hk : k < l.length), j ≤ k → l[j] ≤ l[k] := by
      intro j k hj hk hjk
      rcases Nat.eq_or_lt_of_le hjk with rfl | hlt
      · exact le_rfl
      · exact List.pairwise_iff_getElem.mp hsorted _ _ hj hk hlt
    have hall : ∀ x ∈ (l.drop i).take (n + 1), a ≤ x ∧ x < a + w := by
      intro x hx
      obtain ⟨k, hk⟩ := List.mem_iff_getElem?.mp hx
      rw [List.getElem?_take] at hk
      split_ifs at hk with hkn
      rw [List.getElem?_drop] at hk
      obtain ⟨hik, rfl⟩ := List.getElem?_eq_some_iff.mp hk
      subst hia hjb
      exact ⟨hmono _ _ hi hik (by omega),
        (hmono _ _ hik hj (by omega)).trans_lt (not_le.mp hnear)⟩
    have hblock : within w a ((l.drop i).take (n + 1)) = n + 1 := by
      rw [within, List.countP_eq_length.mpr fun x hx => by simpa using hall x hx,
        List.length_take, List.length_drop]
      omega
    have hsub : within w a ((l.drop i).take (n + 1)) ≤ within w a l :=
      ((List.take_sublist ..).trans (List.drop_sublist ..)).countP_le
    have := h a
    omega
  · intro h s
    induction l with
    | nil => simp [within]
    | cons x l ih =>
      by_cases hx : s ≤ x
      · exact within_le_of_head hsorted h hx
      · have hskip : within w s (x :: l) = within w s l := by
          rw [within, List.countP_cons_of_neg (by simp [hx])]
          rfl
        rw [hskip]
        exact ih hsorted.of_cons h.tail

/-! ## Periods -/

/-- The first `n` stamps of each period. -/
def granted (n : ℕ) (periods : List (List K)) : List K := periods.flatMap fun p => p.take n

/-- **Neighbouring periods leave each other room**: with `u` of the `n`
left unused in the first, the `(u + i)`-th stamp of the second comes `w`
after the `i`-th of the first. -/
def Spaced (n : ℕ) (w : K) (p q : List K) : Prop :=
  ∀ i a b, (p.take n)[i]? = some a → q[n - (p.take n).length + i]? = some b → a + w ≤ b

/-- Periods that are not neighbours lie `w` apart. -/
def Apart (w : K) : List (List K) → Prop
  | p :: q :: rest => (∀ a ∈ p, ∀ b ∈ rest.flatten, a + w ≤ b) ∧ Apart w (q :: rest)
  | _ => True

omit [AddCommGroup K] [LinearOrder K] in
theorem granted_sublist (n : ℕ) (periods : List (List K)) :
    (granted n periods).Sublist periods.flatten := by
  induction periods with
  | nil => exact List.Sublist.refl _
  | cons p periods ih =>
    rw [granted, List.flatMap_cons, List.flatten_cons]
    exact (List.take_sublist n p).append ih

/-- A list of at most `n` stamps in front of others. -/
theorem gapped_append_iff {l l' : List K} (hlen : l.length ≤ n) :
    Gapped n w (l ++ l') ↔
      (∀ i a b, l[i]? = some a → l'[n - l.length + i]? = some b → a + w ≤ b) ∧ Gapped n w l' := by
  constructor
  · intro h
    constructor
    · intro i a b ha hb
      have hi := (List.getElem?_eq_some_iff.mp ha).1
      refine h i a b (by rw [List.getElem?_append_left hi]; exact ha) ?_
      rw [List.getElem?_append_right (by omega),
        show i + n - l.length = n - l.length + i by omega]
      exact hb
    · intro i a b ha hb
      refine h (l.length + i) a b ?_ ?_
      · rw [List.getElem?_append_right (by omega), Nat.add_sub_cancel_left]
        exact ha
      · rw [List.getElem?_append_right (by omega),
          show l.length + i + n - l.length = i + n by omega]
        exact hb
  · rintro ⟨hfirst, hrest⟩ i a b ha hb
    rw [List.getElem?_append_right (by omega)] at hb
    -- the earlier of the two is in the first list or not, the later never is
    rcases Nat.lt_or_ge i l.length with hi | hi
    · rw [List.getElem?_append_left hi] at ha
      refine hfirst i a b ha ?_
      rw [show n - l.length + i = i + n - l.length by omega]
      exact hb
    · rw [List.getElem?_append_right hi] at ha
      refine hrest (i - l.length) a b ha ?_
      rw [show i - l.length + n = i + n - l.length by omega]
      exact hb

/-- **Only neighbouring periods have to be looked at.** -/
theorem gapped_granted_iff {periods : List (List K)} (hapart : Apart w periods) :
    Gapped n w (granted n periods) ↔ periods.IsChain (Spaced n w) := by
  induction periods with
  | nil => exact ⟨fun _ => .nil, fun _ i a b ha => by simp [granted] at ha⟩
  | cons p periods ih =>
    have hlen : (p.take n).length ≤ n := by
      rw [List.length_take]
      omega
    rw [granted, List.flatMap_cons, gapped_append_iff hlen]
    rcases periods with - | ⟨q, rest⟩
    · simp only [List.flatMap_nil, List.getElem?_nil, reduceCtorEq, false_implies, implies_true,
        true_and, List.isChain_singleton, iff_true]
      intro i a b ha
      simp at ha
    · obtain ⟨hfar, hapart'⟩ := hapart
      rw [List.isChain_cons_cons, ← ih hapart']
      refine and_congr_left fun _ => ?_
      change (∀ i a b, _ → (granted n (q :: rest))[_]? = some b → _) ↔ _
      rw [granted, List.flatMap_cons]
      have hqlen : (q.take n).length = min n q.length := List.length_take
      constructor
      · intro h i a b ha hb
        have hi := (List.getElem?_eq_some_iff.mp ha).1
        refine h i a b ha ?_
        have hq := (List.getElem?_eq_some_iff.mp hb).1
        rw [List.getElem?_append_left (by omega),
          List.getElem?_take_of_lt (by omega)]
        exact hb
      · intro h i a b ha hb
        have hi := (List.getElem?_eq_some_iff.mp ha).1
        rcases Nat.lt_or_ge (n - (p.take n).length + i) (q.take n).length with hq | hq
        · rw [List.getElem?_append_left hq, List.getElem?_take_of_lt (by omega)] at hb
          exact h i a b ha hb
        · -- it is not of the next period
          rw [List.getElem?_append_right hq] at hb
          exact hfar a (List.mem_of_mem_take (List.mem_of_getElem? ha)) b
            ((granted_sublist n rest).subset (List.mem_of_getElem? hb))

/-- **No two quotas apart meet in a window.** -/
theorem gapped_granted_twice {periods : List (List K)} (hapart : Apart w periods) :
    Gapped (2 * n) w (granted n periods) := by
  induction periods with
  | nil => exact fun i a b ha => by simp [granted] at ha
  | cons p periods ih =>
    have hplen : (p.take n).length ≤ n := by
      rw [List.length_take]
      omega
    rw [granted, List.flatMap_cons, gapped_append_iff (by omega)]
    rcases periods with - | ⟨q, rest⟩
    · exact ⟨fun i a b _ hb => by simp at hb, fun i a b ha => by simp at ha⟩
    · obtain ⟨hfar, hapart'⟩ := hapart
      refine ⟨fun i a b ha hb => ?_, ih hapart'⟩
      have hqlen : (q.take n).length = min n q.length := List.length_take
      -- two quotas on, it is past the next period
      rw [List.flatMap_cons, List.getElem?_append_right (by omega)] at hb
      exact hfar a (List.mem_of_mem_take (List.mem_of_getElem? ha)) b
        ((granted_sublist n rest).subset (List.mem_of_getElem? hb))

/-- One more period, at the end. -/
theorem apart_concat_iff (periods : List (List K)) (p : List K) :
    Apart w (periods ++ [p]) ↔
      Apart w periods ∧ ∀ a ∈ periods.dropLast.flatten, ∀ b ∈ p, a + w ≤ b := by
  induction periods with
  | nil => simp [Apart]
  | cons q periods ih =>
    rcases periods with - | ⟨r, rest⟩
    · simp [Apart]
    -- the first period and the new one are apart from all between, and from each other
    · have hfirst : (∀ a ∈ q, ∀ b ∈ (rest ++ [p]).flatten, a + w ≤ b) ↔
          (∀ a ∈ q, ∀ b ∈ rest.flatten, a + w ≤ b) ∧ ∀ a ∈ q, ∀ b ∈ p, a + w ≤ b := by
        simp only [List.flatten_append, List.flatten_cons, List.flatten_nil, List.append_nil,
          List.mem_append, or_imp, forall_and]
      have hlast : (∀ a ∈ (q :: r :: rest).dropLast.flatten, ∀ b ∈ p, a + w ≤ b) ↔
          (∀ a ∈ q, ∀ b ∈ p, a + w ≤ b) ∧
            ∀ a ∈ (r :: rest).dropLast.flatten, ∀ b ∈ p, a + w ≤ b := by
        simp only [List.dropLast_cons_cons, List.flatten_cons, List.mem_append, or_imp, forall_and]
      change (∀ a ∈ q, ∀ b ∈ (rest ++ [p]).flatten, a + w ≤ b) ∧ Apart w ((r :: rest) ++ [p]) ↔
        ((∀ a ∈ q, ∀ b ∈ rest.flatten, a + w ≤ b) ∧ Apart w (r :: rest)) ∧ _
      rw [hfirst, hlast, ih]
      tauto

end Windows

end TftAnalytics

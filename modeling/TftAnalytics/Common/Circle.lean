import Mathlib.Data.List.Rotate
import Mathlib.Data.List.Dedup
import Mathlib.Data.List.Sort
import Mathlib.Data.Finset.Card
/-!
# Circles — an ordered list read around, first sightings kept

Reading an increasing list clockwise from a value: what lies at or behind
it, then what lies before it. Both the reading and the first sightings in
a list go through filters, and that is what makes a filtered circle's
reading the filtered reading.
-/

namespace TftAnalytics

/-! ## First sightings -/

section FirstSightings

variable {α : Type*} [BEq α] [LawfulBEq α]

/-- A filter and the first sightings commute. -/
theorem eraseDups_filter (p : α → Bool) (l : List α) :
    (l.filter p).eraseDups = l.eraseDups.filter p := by
  induction h : l.length using Nat.strong_induction_on generalizing l with
  | _ n ih =>
    cases l with
    | nil => rfl
    | cons a l =>
      have hlt : (l.filter fun b => !b == a).length < n :=
        h ▸ Nat.lt_succ_of_le (List.length_filter_le _ l)
      rw [List.eraseDups_cons, List.filter_cons, List.filter_cons, ← ih _ hlt _ rfl,
        List.filter_filter]
      split_ifs with hp
      · rw [List.eraseDups_cons, List.filter_filter]
        simp only [Bool.and_comm]
      · -- what equals the rejected head is rejected with it
        congr 1
        refine List.filter_congr fun b _ => ?_
        by_cases hb : b = a
        · simp [hb, hp]
        · simp [beq_eq_false_iff_ne.mpr hb]

theorem nodup_eraseDups (l : List α) : l.eraseDups.Nodup := by
  induction h : l.length using Nat.strong_induction_on generalizing l with
  | _ n ih =>
    cases l with
    | nil => exact List.nodup_nil
    | cons a l =>
      rw [List.eraseDups_cons, List.nodup_cons]
      refine ⟨by simp, ih _ ?_ _ rfl⟩
      exact h ▸ Nat.lt_succ_of_le (List.length_filter_le _ l)

theorem length_eraseDups [DecidableEq α] (l : List α) : l.eraseDups.length = l.toFinset.card := by
  rw [← List.toFinset_card_of_nodup (nodup_eraseDups l)]
  congr 1
  ext a
  simp

omit [LawfulBEq α] in
theorem head?_eraseDups (l : List α) : l.eraseDups.head? = l.head? := by
  cases l with
  | nil => rfl
  | cons a l => rw [List.eraseDups_cons]; rfl

end FirstSightings

/-! ## Clockwise -/

section Clockwise

variable {α : Type*} [LinearOrder α]

/-- The list from `x` on, and around its end. -/
def clockwise (x : α) (l : List α) : List α :=
  l.filter (fun a => x ≤ a) ++ l.filter (fun a => a < x)

theorem clockwise_filter (x : α) (p : α → Bool) (l : List α) :
    clockwise x (l.filter p) = (clockwise x l).filter p := by
  simp only [clockwise, List.filter_append, List.filter_filter, Bool.and_comm]

/-- An increasing list falls at `x` into what is before it and what is not. -/
theorem filter_append_of_pairwise {l : List α} (h : l.Pairwise (· < ·)) (x : α) :
    l.filter (fun a => a < x) ++ l.filter (fun a => x ≤ a) = l := by
  induction l with
  | nil => rfl
  | cons a l ih =>
    obtain ⟨hhead, htail⟩ := List.pairwise_cons.mp h
    by_cases hx : a < x
    · rw [List.filter_cons_of_pos (by simpa using hx),
        List.filter_cons_of_neg (by simpa using hx), List.cons_append, ih htail]
    · -- the head is behind `x`, and so is all that follows it
      have hxa : x ≤ a := le_of_not_gt hx
      have hall : ∀ b ∈ a :: l, x ≤ b := by
        intro b hb
        rcases List.mem_cons.mp hb with rfl | hb
        · exact hxa
        · exact hxa.trans (hhead b hb).le
      rw [List.filter_eq_nil_iff.mpr fun b hb => by simpa using hall b hb, List.nil_append,
        List.filter_eq_self.mpr fun b hb => by simpa using hall b hb]

/-- Read from one of its elements, an increasing list starts there. -/
theorem head?_clockwise_of_mem {l : List α} (h : l.Pairwise (· < ·)) {x : α} (hx : x ∈ l) :
    (clockwise x l).head? = some x := by
  obtain ⟨before, behind, rfl⟩ := List.append_of_mem hx
  obtain ⟨-, -, hcross⟩ := List.pairwise_append.mp h
  have hnil : before.filter (fun a => x ≤ a) = [] :=
    List.filter_eq_nil_iff.mpr fun b hb => by simpa using hcross b hb x (by simp)
  rw [clockwise, List.filter_append, hnil, List.nil_append,
    List.filter_cons_of_pos (by simp), List.cons_append, List.head?_cons]

theorem findIdx_of_pairwise {l : List α} (h : l.Pairwise (· < ·)) (x : α) :
    l.findIdx (fun a => x ≤ a) = (l.filter fun a => a < x).length := by
  induction l with
  | nil => rfl
  | cons a l ih =>
    obtain ⟨hhead, htail⟩ := List.pairwise_cons.mp h
    by_cases hx : a < x
    · rw [List.findIdx_cons, List.filter_cons_of_pos (by simpa using hx), List.length_cons,
        ← ih htail]
      simp [not_le.mpr hx]
    · have hxa : x ≤ a := le_of_not_gt hx
      have hnil : (a :: l).filter (fun b => b < x) = [] := by
        refine List.filter_eq_nil_iff.mpr fun b hb => ?_
        rcases List.mem_cons.mp hb with rfl | hb
        · simpa using hxa
        · simpa using hxa.trans (hhead b hb).le
      rw [List.findIdx_cons, hnil]
      simp [hxa]

/-- **One turn by index is the clockwise list**: from the first element at
or behind `x`, or from the start where there is none, modulo the length. -/
theorem turn_eq_clockwise {l : List α} (h : l.Pairwise (· < ·)) (x d : α) {start : ℕ}
    (hstart : start = if l.findIdx (fun a => x ≤ a) = l.length then 0
      else l.findIdx fun a => x ≤ a) :
    ((List.range l.length).map fun i => l.getD ((start + i) % l.length) d) = clockwise x l := by
  set before := l.filter fun a => a < x with hbefore
  set behind := l.filter fun a => x ≤ a with hbehind
  have hsplit : before ++ behind = l := filter_append_of_pairwise h x
  have hidx : l.findIdx (fun a => x ≤ a) = before.length := findIdx_of_pairwise h x
  -- indexing from a start, modulo the length, is a rotation
  have hturn : ((List.range l.length).map fun i => l.getD ((start + i) % l.length) d)
      = l.rotate start := by
    refine List.ext_getElem (by simp) fun i hi _ => ?_
    have hlt : (i + start) % l.length < l.length :=
      Nat.mod_lt _ (by simp only [List.length_map, List.length_range] at hi; omega)
    rw [List.getElem_map, List.getElem_range, List.getElem_rotate, Nat.add_comm start i,
      List.getD_eq_getElem?_getD, List.getElem?_eq_getElem hlt, Option.getD_some]
  have hrotate : l.rotate start = l.rotate before.length := by
    rw [hstart, hidx]
    split_ifs with hend
    · rw [hend, List.rotate_length, List.rotate_zero]
    · rfl
  have hle : before.length ≤ l.length := List.length_filter_le _ _
  rw [hturn, hrotate, List.rotate_eq_drop_append_take hle]
  calc l.drop before.length ++ l.take before.length
      = (before ++ behind).drop before.length ++ (before ++ behind).take before.length := by
        rw [hsplit]
    _ = behind ++ before := by rw [List.drop_left, List.take_left]

end Clockwise

end TftAnalytics

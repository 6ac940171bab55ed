import TftAnalytics.Common.Heapq
import Mathlib.Data.List.Sort
import Mathlib.Logic.Equiv.Basic
/-!
# Common — the order of a heap

`heappop`, and the order that `heappush` and `heappop` keep, for a test
that is a strict weak order. A pop sends the last element from the root
down to a leaf and lets it rise again, so two states of disorder are told
apart: one where the element at a position may belong higher (`Rises`),
and one where it may belong lower (`Sinks`).
-/

namespace TftAnalytics

namespace Heapq

variable {α : Type} (lt : α → α → Bool)

/-- `heappop`; an empty list raises. -/
def heappop : List α → Option (α × List α)
  | [] => none
  | returnitem :: heap =>
    match heap.getLast? with
    | none => some (returnitem, [])
    | some lastelt => some (returnitem, siftup lt (lastelt :: heap.dropLast) 0)

/-- A test that is a strict weak order. -/
structure WeakOrder : Prop where
  asymm : ∀ {x y : α}, lt x y = true → lt y x = false
  trans : ∀ {x y z : α}, lt x y = false → lt y z = false → lt x z = false

/-- **No element comes before its parent.** -/
def IsHeap (heap : List α) : Prop := ∀ i, ltAt lt heap i ((i - 1) / 2) = false

/-- A heap but for the element at a position, which may come before its
parent. -/
structure Rises (heap : List α) (pos : ℕ) : Prop where
  rest : ∀ i, i ≠ pos → ltAt lt heap i ((i - 1) / 2) = false
  below : 0 < pos → ∀ i, 0 < i → (i - 1) / 2 = pos → ltAt lt heap i ((pos - 1) / 2) = false

/-- A heap but for the element at a position, which may come after its
children, and before its parent. -/
structure Sinks (heap : List α) (pos : ℕ) : Prop where
  rest : ∀ i, i ≠ pos → (i - 1) / 2 ≠ pos → ltAt lt heap i ((i - 1) / 2) = false
  below : 0 < pos → ∀ i, 0 < i → (i - 1) / 2 = pos → ltAt lt heap i ((pos - 1) / 2) = false

variable {lt}

/-! ## Comparing positions -/

theorem WeakOrder.irrefl (w : WeakOrder lt) (x : α) : lt x x = false := by
  rcases h : lt x x with _ | _
  · rfl
  · exact h ▸ w.asymm h

theorem ltAt_of_length_le {heap : List α} {i : ℕ} (h : heap.length ≤ i) (j : ℕ) :
    ltAt lt heap i j = false := by
  simp [ltAt, List.getElem?_eq_none h]

theorem ltAt_self (w : WeakOrder lt) (heap : List α) (i : ℕ) : ltAt lt heap i i = false := by
  rcases h : heap[i]? with _ | x <;> simp [ltAt, h, w.irrefl]

theorem ltAt_asymm (w : WeakOrder lt) {heap : List α} {i j : ℕ} (h : ltAt lt heap i j = true) :
    ltAt lt heap j i = false := by
  rw [ltAt] at h ⊢
  rcases hi : heap[i]? with _ | x <;> rcases hj : heap[j]? with _ | y <;>
    simp only [hi, hj] at h ⊢
  exact w.asymm h

theorem ltAt_trans (w : WeakOrder lt) {heap : List α} {i j k : ℕ} (hj : j < heap.length)
    (hij : ltAt lt heap i j = false) (hjk : ltAt lt heap j k = false) :
    ltAt lt heap i k = false := by
  rw [ltAt, List.getElem?_eq_getElem hj] at hij hjk
  rw [ltAt]
  rcases hi : heap[i]? with _ | x <;> rcases hk : heap[k]? with _ | z <;>
    simp only [hi, hk] at hij hjk ⊢
  exact w.trans hij hjk

theorem length_swap (heap : List α) (i j : ℕ) : (swap heap i j).length = heap.length :=
  (swap_perm heap i j).length_eq

theorem swap_getElem? {heap : List α} {i j : ℕ} (hi : i < heap.length) (hj : j < heap.length)
    (k : ℕ) : (swap heap i j)[k]? = heap[Equiv.swap i j k]? := by
  rw [swap, List.getElem?_eq_getElem hi, List.getElem?_eq_getElem hj]
  dsimp only
  rw [List.getElem?_set, List.getElem?_set, List.length_set, Equiv.swap_apply_def]
  by_cases hkj : k = j
  · subst hkj
    rw [if_pos rfl, if_pos hj, ← List.getElem?_eq_getElem hi]
    by_cases hki : k = i
    · rw [if_pos hki, hki]
    · rw [if_neg hki, if_pos rfl]
  · rw [if_neg (Ne.symm hkj)]
    by_cases hki : k = i
    · subst hki
      rw [if_pos rfl, if_pos rfl, if_pos hi, List.getElem?_eq_getElem hj]
    · rw [if_neg (Ne.symm hki), if_neg hki, if_neg hkj]

theorem ltAt_swap {heap : List α} {i j : ℕ} (hi : i < heap.length) (hj : j < heap.length)
    (a b : ℕ) :
    ltAt lt (swap heap i j) a b = ltAt lt heap (Equiv.swap i j a) (Equiv.swap i j b) := by
  rw [ltAt, ltAt, swap_getElem? hi hj, swap_getElem? hi hj]

/-! ## Rising -/

theorem Rises.swap (w : WeakOrder lt) {heap : List α} {pos : ℕ} (h : Rises lt heap pos)
    (hlen : pos < heap.length) (hlt : ltAt lt heap pos ((pos - 1) / 2) = true) :
    Rises lt (swap heap pos ((pos - 1) / 2)) ((pos - 1) / 2) := by
  have hpos : 0 < pos := Nat.pos_of_ne_zero fun h0 => by
    subst h0
    rw [ltAt_self w] at hlt
    cases hlt
  generalize hparent : (pos - 1) / 2 = p at hlt ⊢
  have hp : p < pos := by omega
  have hback : ltAt lt heap p pos = false := ltAt_asymm w hlt
  -- what stands below the parent stands below the element that takes its place
  have hsibling : ∀ i, i ≠ pos → (i - 1) / 2 = p → ltAt lt heap i pos = false := fun i hi hip =>
    ltAt_trans w (hp.trans hlen) (hip ▸ h.rest i hi) hback
  constructor
  · intro i hi
    rw [ltAt_swap hlen (hp.trans hlen)]
    by_cases hipos : i = pos
    · rw [hipos, hparent, Equiv.swap_apply_left, Equiv.swap_apply_right]
      exact hback
    · rw [Equiv.swap_apply_of_ne_of_ne hipos hi]
      by_cases hchild : (i - 1) / 2 = pos
      · rw [hchild, Equiv.swap_apply_left]
        exact hparent ▸ h.below hpos i (by omega) hchild
      · by_cases hsib : (i - 1) / 2 = p
        · rw [hsib, Equiv.swap_apply_right]
          exact hsibling i hipos hsib
        · rw [Equiv.swap_apply_of_ne_of_ne hchild hsib]
          exact h.rest i hipos
  · intro hp0 i hi0 hip
    have hgrand : ltAt lt heap p ((p - 1) / 2) = false := h.rest p hp.ne
    rw [ltAt_swap hlen (hp.trans hlen), Equiv.swap_apply_of_ne_of_ne (x := (p - 1) / 2)
      (by omega) (by omega)]
    by_cases hipos : i = pos
    · rw [hipos, Equiv.swap_apply_left]
      exact hgrand
    · rw [Equiv.swap_apply_of_ne_of_ne hipos (by omega)]
      exact ltAt_trans w (hp.trans hlen) (hip ▸ h.rest i hipos) hgrand

theorem Rises.isHeap {heap : List α} {pos : ℕ} (h : Rises lt heap pos)
    (hpos : ltAt lt heap pos ((pos - 1) / 2) = false) : IsHeap lt heap := by
  intro i
  by_cases hi : i = pos
  · exact hi ▸ hpos
  · exact h.rest i hi

/-- **Rising restores the heap.** -/
theorem isHeap_siftdown (w : WeakOrder lt) (fuel : ℕ) {heap : List α} {pos : ℕ}
    (h : Rises lt heap pos) (hlen : pos < heap.length) (hfuel : pos ≤ fuel) :
    IsHeap lt (siftdown lt 0 fuel pos heap) := by
  induction fuel generalizing heap pos with
  | zero =>
    obtain rfl := Nat.le_zero.mp hfuel
    exact h.isHeap (ltAt_self w heap 0)
  | succ fuel ih =>
    rw [siftdown]
    split_ifs with hcond
    · refine ih (h.swap w hlen hcond.2) ?_ (by omega)
      rw [length_swap]
      omega
    · refine h.isHeap ?_
      rcases Nat.eq_zero_or_pos pos with rfl | hpos
      · exact ltAt_self w heap 0
      · exact Bool.eq_false_iff.mpr fun hlt => hcond ⟨hpos, hlt⟩

/-- **A push keeps the order.** -/
theorem isHeap_heappush (w : WeakOrder lt) {heap : List α} (h : IsHeap lt heap) (item : α) :
    IsHeap lt (heappush lt heap item) := by
  have hout : ∀ i, heap.length < i → ∀ j, ltAt lt (heap ++ [item]) i j = false := fun i hi j =>
    ltAt_of_length_le (by simp; omega) j
  refine isHeap_siftdown w _ ⟨fun i hi => ?_, fun hpos i hi0 hip => hout i (by omega) _⟩
    (by simp) le_rfl
  rcases Nat.lt_or_gt_of_ne hi with hlt | hgt
  · have hleft : ∀ j, j < heap.length → (heap ++ [item])[j]? = heap[j]? := fun j hj =>
      List.getElem?_append_left hj
    rw [ltAt, hleft i hlt, hleft _ (by omega)]
    exact h i
  · exact hout i hgt _

/-! ## Sinking -/

theorem Sinks.swap (w : WeakOrder lt) {heap : List α} {pos c : ℕ} (h : Sinks lt heap pos)
    (hlen : c < heap.length) (hc : pos < c) (hparent : (c - 1) / 2 = pos)
    (hleast : ∀ i, 0 < i → (i - 1) / 2 = pos → ltAt lt heap i c = false) :
    Sinks lt (swap heap pos c) c := by
  have hpos : pos < heap.length := hc.trans hlen
  constructor
  · intro i hic hichild
    rw [ltAt_swap hpos hlen, Equiv.swap_apply_def pos c ((i - 1) / 2), if_neg hichild]
    by_cases hipos : i = pos
    · subst hipos
      rw [Equiv.swap_apply_left]
      rcases Nat.eq_zero_or_pos i with rfl | hi0
      · rw [if_pos rfl]
        exact ltAt_self w heap c
      · rw [if_neg (by omega)]
        exact h.below hi0 c (by omega) hparent
    · rw [Equiv.swap_apply_of_ne_of_ne hipos hic]
      split_ifs with hsib
      · exact hleast i (by omega) hsib
      · exact h.rest i hipos hsib
  · intro hc0 i hi0 hip
    rw [ltAt_swap hpos hlen, hparent, Equiv.swap_apply_left,
      Equiv.swap_apply_of_ne_of_ne (by omega) (by omega)]
    exact hip ▸ h.rest i (by omega) (by omega)

/-- At a leaf, what sank can only rise. -/
theorem Sinks.rises {heap : List α} {pos : ℕ} (h : Sinks lt heap pos)
    (hleaf : heap.length ≤ 2 * pos + 1) : Rises lt heap pos := by
  have hout : ∀ i, 0 < i → (i - 1) / 2 = pos → ∀ j, ltAt lt heap i j = false := fun i hi0 hip =>
    ltAt_of_length_le (by omega)
  refine ⟨fun i hi => ?_, fun _ i hi0 hip => hout i hi0 hip _⟩
  by_cases hip : (i - 1) / 2 = pos
  · exact hout i (by omega) hip _
  · exact h.rest i hi hip

theorem rises_sink (w : WeakOrder lt) (fuel : ℕ) {heap : List α} {pos : ℕ}
    (h : Sinks lt heap pos) (hlen : pos < heap.length) (hfuel : heap.length ≤ pos + fuel) :
    Rises lt (sink lt fuel pos heap).2 (sink lt fuel pos heap).1 ∧
      (sink lt fuel pos heap).1 < heap.length := by
  induction fuel generalizing heap pos with
  | zero => omega
  | succ fuel ih =>
    rw [sink]
    dsimp only
    split_ifs with hchild hright
    · -- the right child is the smaller one
      have hleast : ∀ i, 0 < i → (i - 1) / 2 = pos →
          ltAt lt heap i (2 * pos + 1 + 1) = false := by
        intro i hi0 hip
        rcases (show i = 2 * pos + 1 ∨ i = 2 * pos + 1 + 1 by omega) with rfl | rfl
        · exact hright.2
        · exact ltAt_self w heap _
      have hrest := ih (h.swap w hright.1 (by omega) (by omega) hleast)
        (by rw [length_swap]; exact hright.1) (by rw [length_swap]; omega)
      rwa [length_swap] at hrest
    · have hleast : ∀ i, 0 < i → (i - 1) / 2 = pos → ltAt lt heap i (2 * pos + 1) = false := by
        intro i hi0 hip
        rcases (show i = 2 * pos + 1 ∨ i = 2 * pos + 1 + 1 by omega) with rfl | rfl
        · exact ltAt_self w heap _
        · rcases Nat.lt_or_ge (2 * pos + 1 + 1) heap.length with hin | hout
          · refine ltAt_asymm w (Bool.eq_true_of_not_eq_false fun hf => hright ⟨hin, hf⟩)
          · exact ltAt_of_length_le hout _
      have hrest := ih (h.swap w hchild (by omega) (by omega) hleast)
        (by rw [length_swap]; exact hchild) (by rw [length_swap]; omega)
      rwa [length_swap] at hrest
    · exact ⟨h.rises (by omega), hlen⟩

/-- **Sinking from the root restores the heap.** -/
theorem isHeap_siftup (w : WeakOrder lt) {heap : List α} (h : Sinks lt heap 0)
    (hne : 0 < heap.length) : IsHeap lt (siftup lt heap 0) := by
  obtain ⟨hrises, hleaf⟩ := rises_sink w heap.length h hne (by omega)
  refine isHeap_siftdown w _ hrises ?_ le_rfl
  rwa [(sink_perm _ _ _).length_eq]

/-! ## Popping -/

/-- The root comes before no element. -/
theorem IsHeap.root (w : WeakOrder lt) {heap : List α} (h : IsHeap lt heap) (i : ℕ) :
    ltAt lt heap i 0 = false := by
  induction i using Nat.strong_induction_on with
  | _ i ih =>
    rcases Nat.eq_zero_or_pos i with rfl | hi0
    · exact ltAt_self w heap 0
    · rcases Nat.lt_or_ge i heap.length with hin | hout
      · exact ltAt_trans w (by omega) (h i) (ih ((i - 1) / 2) (by omega))
      · exact ltAt_of_length_le hout 0

/-- What a pop leaves. -/
theorem heappop_eq_some {heap rest : List α} {x : α} (h : heappop lt heap = some (x, rest)) :
    (heap = [x] ∧ rest = []) ∨
      ∃ lastelt middle, heap = x :: (middle ++ [lastelt]) ∧
        rest = siftup lt (lastelt :: middle) 0 := by
  rcases heap with _ | ⟨y, heap⟩
  · cases h
  · rcases heap.eq_nil_or_concat with rfl | ⟨middle, lastelt, rfl⟩
    · cases h
      exact .inl ⟨rfl, rfl⟩
    · rw [heappop, List.concat_eq_append, List.getLast?_concat, List.dropLast_concat] at h
      cases h
      exact .inr ⟨lastelt, middle, List.concat_eq_append ▸ rfl, rfl⟩

/-- **A pop takes its item out.** -/
theorem heappop_perm {heap rest : List α} {x : α} (h : heappop lt heap = some (x, rest)) :
    heap.Perm (x :: rest) := by
  obtain ⟨rfl, rfl⟩ | ⟨lastelt, middle, rfl, rfl⟩ := heappop_eq_some h
  · exact List.Perm.refl _
  · exact ((List.perm_append_singleton lastelt middle).trans (siftup_perm _ _).symm).cons x

/-- **A pop keeps the order.** -/
theorem isHeap_heappop (w : WeakOrder lt) {heap rest : List α} {x : α} (hheap : IsHeap lt heap)
    (h : heappop lt heap = some (x, rest)) : IsHeap lt rest := by
  obtain ⟨rfl, rfl⟩ | ⟨lastelt, middle, rfl, rfl⟩ := heappop_eq_some h
  · exact fun i => ltAt_of_length_le (Nat.zero_le i) _
  · refine isHeap_siftup w ⟨fun i hi0 hip => ?_, fun h0 => absurd h0 (Nat.lt_irrefl 0)⟩ (by simp)
    -- below the children of the root nothing has changed
    rcases Nat.lt_or_ge i (middle.length + 1) with hin | hout
    · obtain ⟨n, rfl⟩ := Nat.exists_eq_succ_of_ne_zero hi0
      obtain ⟨m, hm⟩ := Nat.exists_eq_succ_of_ne_zero hip
      have hi := hheap (n + 1)
      rw [hm] at hi ⊢
      rwa [ltAt, List.getElem?_cons_succ, List.getElem?_cons_succ,
        List.getElem?_append_left (by omega), List.getElem?_append_left (by omega),
        ← List.getElem?_cons_succ (a := lastelt), ← List.getElem?_cons_succ (a := lastelt)] at hi
    · exact ltAt_of_length_le (by simpa using hout) _

/-- **A pop takes a least item.** -/
theorem heappop_least (w : WeakOrder lt) {heap rest : List α} {x : α} (hheap : IsHeap lt heap)
    (h : heappop lt heap = some (x, rest)) : ∀ y ∈ rest, lt y x = false := by
  intro y hy
  have hx : heap[0]? = some x := by
    obtain ⟨rfl, -⟩ | ⟨lastelt, middle, rfl, -⟩ := heappop_eq_some h <;> rfl
  obtain ⟨i, hi⟩ := List.mem_iff_getElem?.mp ((heappop_perm h).mem_iff.mpr (.tail x hy))
  have hroot := hheap.root w i
  rwa [ltAt, hi, hx] at hroot

/-! ## Where no two items are level -/

/-- A test that tells any two items apart. -/
structure StrictOrder (lt : α → α → Bool) : Prop extends WeakOrder lt where
  connected : ∀ {x y : α}, lt x y = false → lt y x = false → x = y

/-- `sorted`. -/
def sorted (lt : α → α → Bool) (l : List α) : List α :=
  l.insertionSort fun x y => lt y x = false

theorem sorted_perm (l : List α) : (sorted lt l).Perm l := List.perm_insertionSort _ l

theorem WeakOrder.pairwise_sorted (w : WeakOrder lt) (l : List α) :
    (sorted lt l).Pairwise fun x y => lt y x = false := by
  have htotal : Std.Total fun x y => lt y x = false := ⟨fun x y => by
    rcases h : lt y x with _ | _
    · exact .inl rfl
    · exact .inr (w.asymm h)⟩
  have htrans : IsTrans α fun x y => lt y x = false := ⟨fun _ _ _ hxy hyz => w.trans hyz hxy⟩
  exact List.pairwise_insertionSort _ l

/-- Items have one order. -/
theorem StrictOrder.sorted_eq (o : StrictOrder lt) {l l' : List α} (h : l.Perm l')
    (hl' : l'.Pairwise fun x y => lt y x = false) : sorted lt l = l' :=
  ((sorted_perm l).trans h).eq_of_pairwise (fun _ _ _ _ hxy hyx => o.connected hyx hxy)
    (o.toWeakOrder.pairwise_sorted l) hl'

/-- **Pops come in order.** -/
theorem StrictOrder.sorted_heappop (o : StrictOrder lt) {heap rest : List α} {x : α}
    (hheap : IsHeap lt heap) (h : heappop lt heap = some (x, rest)) :
    sorted lt heap = x :: sorted lt rest := by
  refine o.sorted_eq ((heappop_perm h).trans ((sorted_perm rest).symm.cons x))
    (List.pairwise_cons.mpr ⟨fun y hy => ?_, o.toWeakOrder.pairwise_sorted rest⟩)
  exact heappop_least o.toWeakOrder hheap h y ((sorted_perm rest).mem_iff.mp hy)

/-- The order of a type is one. -/
theorem strictOrder_lt {β : Type} [LT β] [LE β] [DecidableLT β] [Std.IsLinearOrder β]
    [Std.LawfulOrderLT β] : StrictOrder fun x y : β => decide (x < y) where
  asymm h := decide_eq_false (Std.not_gt_of_lt (of_decide_eq_true h))
  trans hxy hyz :=
    have hyx := Std.not_lt.mp (of_decide_eq_false hxy)
    decide_eq_false (Std.not_lt.mpr (Std.le_trans (Std.not_lt.mp (of_decide_eq_false hyz)) hyx))
  connected hxy hyx := Std.le_antisymm (Std.not_lt.mp (of_decide_eq_false hyx))
    (Std.not_lt.mp (of_decide_eq_false hxy))

/-- How tuples compare: by the first component that differs. -/
def pairLt {β γ : Type} [DecidableEq β] (ltβ : β → β → Bool) (ltγ : γ → γ → Bool)
    (p q : β × γ) : Bool :=
  if p.1 = q.1 then ltγ p.2 q.2 else ltβ p.1 q.1

theorem StrictOrder.pair {β γ : Type} [DecidableEq β] {ltβ : β → β → Bool} {ltγ : γ → γ → Bool}
    (oβ : StrictOrder ltβ) (oγ : StrictOrder ltγ) : StrictOrder (pairLt ltβ ltγ) where
  asymm {p q} h := by
    unfold pairLt at h ⊢
    by_cases hpq : p.1 = q.1
    · rw [if_pos hpq] at h
      rw [if_pos hpq.symm]
      exact oγ.asymm h
    · rw [if_neg hpq] at h
      rw [if_neg (Ne.symm hpq)]
      exact oβ.asymm h
  trans {p q r} hpq hqr := by
    unfold pairLt at hpq hqr ⊢
    by_cases h1 : p.1 = q.1 <;> by_cases h2 : q.1 = r.1
    · rw [if_pos h1] at hpq
      rw [if_pos h2] at hqr
      rw [if_pos (h1.trans h2)]
      exact oγ.trans hpq hqr
    · rw [if_neg h2] at hqr
      rw [if_neg (h1 ▸ h2), h1]
      exact hqr
    · rw [if_neg h1] at hpq
      rw [if_neg (h2 ▸ h1), ← h2]
      exact hpq
    · rw [if_neg h1] at hpq
      rw [if_neg h2] at hqr
      by_cases h3 : p.1 = r.1
      · -- the two tests are each other's converse
        exact absurd (oβ.connected hpq (h3 ▸ hqr)) h1
      · rw [if_neg h3]
        exact oβ.trans hpq hqr
  connected {p q} hpq hqp := by
    unfold pairLt at hpq hqp
    by_cases h : p.1 = q.1
    · rw [if_pos h] at hpq
      rw [if_pos h.symm] at hqp
      exact Prod.ext h (oγ.connected hpq hqp)
    · rw [if_neg h] at hpq
      rw [if_neg (Ne.symm h)] at hqp
      exact absurd (oβ.connected hpq hqp) h

end Heapq

end TftAnalytics

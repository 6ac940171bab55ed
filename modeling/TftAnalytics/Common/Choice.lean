import Mathlib.Data.List.MinMax
import Mathlib.Order.WithBot
/-!
# Choice — selecting by rank

A binary selector that returns one of its arguments is understood through
a rank: on the elements it is used for, the rank of the selected one is
the larger rank. Then folding the selector over any collection, in any
order and grouping, selects an element of the largest rank, and which
element that is can depend on the order only among equal ranks.
-/

namespace TftAnalytics

variable {α ρ : Type*} [LinearOrder ρ]

/-- On `C`, `pick` selects an argument of the larger rank. -/
structure ChoosesMax (pick : α → α → α) (rank : α → ρ) (C : Set α) : Prop where
  choice : ∀ a b, pick a b = a ∨ pick a b = b
  rank_pick : ∀ {a b}, a ∈ C → b ∈ C → rank (pick a b) = max (rank a) (rank b)

/-- The largest rank in a list, `⊥` for none. -/
def topRank (rank : α → ρ) (l : List α) : WithBot ρ := (l.map rank).maximum

@[simp] theorem topRank_nil (rank : α → ρ) : topRank rank [] = ⊥ := rfl

@[simp] theorem topRank_cons (rank : α → ρ) (a : α) (l : List α) :
    topRank rank (a :: l) = max ↑(rank a) (topRank rank l) := List.maximum_cons _ _

@[simp] theorem topRank_append (rank : α → ρ) (l l' : List α) :
    topRank rank (l ++ l') = max (topRank rank l) (topRank rank l') := by
  induction l with
  | nil => simp
  | cons a l ih => simp [ih, max_assoc]

theorem topRank_le_iff {rank : α → ρ} {l : List α} {x : WithBot ρ} :
    topRank rank l ≤ x ↔ ∀ a ∈ l, ↑(rank a) ≤ x := by
  induction l with
  | nil => simp
  | cons a l ih => simp [ih]

theorem le_topRank {rank : α → ρ} {l : List α} {a : α} (h : a ∈ l) : ↑(rank a) ≤ topRank rank l :=
  topRank_le_iff.mp le_rfl a h

/-- The largest rank depends on the members only. -/
theorem topRank_congr {rank : α → ρ} {l l' : List α} (h : ∀ a, a ∈ l ↔ a ∈ l') :
    topRank rank l = topRank rank l' :=
  le_antisymm (topRank_le_iff.mpr fun a ha => le_topRank ((h a).mp ha))
    (topRank_le_iff.mpr fun a ha => le_topRank ((h a).mpr ha))

/-- The rank of an optional element. -/
def optRank (rank : α → ρ) (o : Option α) : WithBot ρ := topRank rank o.toList

@[simp] theorem optRank_none (rank : α → ρ) : optRank rank none = ⊥ := rfl

@[simp] theorem optRank_some (rank : α → ρ) (a : α) : optRank rank (some a) = ↑(rank a) := by
  simp [optRank]

@[simp] theorem topRank_toList (rank : α → ρ) (o : Option α) :
    topRank rank o.toList = optRank rank o := rfl

/-- Equal ranks, read as optional values. -/
theorem optRank_eq_iff {rank : α → ρ} {o o' : Option α} :
    optRank rank o = optRank rank o' ↔ o.map rank = o'.map rank := by
  cases o <;> cases o' <;> simp

/-- A selector on optional elements, of which a missing one loses. -/
def pickOption (pick : α → α → α) : Option α → Option α → Option α
  | none, b => b
  | some a, none => some a
  | some a, some b => some (pick a b)

/-- What is selected is one of the two. -/
theorem mem_or_mem_of_mem_pickOption {pick : α → α → α} (hpick : ∀ a b, pick a b = a ∨ pick a b = b)
    {a b : Option α} {x : α} (h : x ∈ pickOption pick a b) : x ∈ a ∨ x ∈ b := by
  cases a with
  | none => exact .inr h
  | some a =>
    cases b with
    | none => exact .inl h
    | some b =>
      obtain rfl : pick a b = x := by simpa [pickOption] using h
      rcases hpick a b with hp | hp <;> rw [hp]
      · exact .inl rfl
      · exact .inr rfl

/-- Folding selects something where there is something. -/
theorem isSome_foldl_pickOption (pick : α → α → α) (l : List α) (o : Option α) :
    (l.foldl (fun o a => pickOption pick o (some a)) o).isSome = (o.isSome || !l.isEmpty) := by
  induction l generalizing o with
  | nil => simp
  | cons a l ih =>
    rw [List.foldl_cons, ih]
    cases o <;> simp [pickOption]

/-- What folding selects is where it started or one of the elements. -/
theorem mem_or_mem_of_mem_foldl {pick : α → α → α} (hpick : ∀ a b, pick a b = a ∨ pick a b = b)
    {l : List α} {o : Option α} {x : α}
    (h : x ∈ l.foldl (fun o a => pickOption pick o (some a)) o) : x ∈ o ∨ x ∈ l := by
  induction l generalizing o with
  | nil => exact .inl h
  | cons a l ih =>
    rcases ih h with hstart | hl
    · rcases mem_or_mem_of_mem_pickOption hpick hstart with ho | ha
      · exact .inl ho
      · exact .inr (List.mem_cons.mpr (.inl (Option.some.inj ha).symm))
    · exact .inr (List.mem_cons_of_mem a hl)

/-- **What prevails in a list**: the first element, until a later one takes
over. -/
inductive Prevails (takesOver : α → α → Prop) : List α → α → Prop
  | first (x : α) : Prevails takesOver [x] x
  | stays {l : List α} {x y : α} (h : Prevails takesOver l x) (hxy : ¬ takesOver y x) :
      Prevails takesOver (l ++ [y]) x
  | falls {l : List α} {x y : α} (h : Prevails takesOver l x) (hxy : takesOver y x) :
      Prevails takesOver (l ++ [y]) y

omit [LinearOrder ρ] in
/-- Folding selects what prevails. -/
theorem foldl_eq_some_iff_prevails {pick : α → α → α} {takesOver : α → α → Prop}
    (hpick : ∀ x y, takesOver y x ∧ pick x y = y ∨ ¬ takesOver y x ∧ pick x y = x) {l : List α}
    {x : α} :
    l.foldl (fun o a => pickOption pick o (some a)) none = some x ↔ Prevails takesOver l x := by
  constructor
  · induction l using List.reverseRecOn generalizing x with
    | nil => exact fun h => by cases h
    | append_singleton l y ih =>
      rw [List.foldl_concat]
      cases hl : l.foldl (fun o a => pickOption pick o (some a)) none with
      | none =>
        -- nothing is selected from no elements only
        have hsome := isSome_foldl_pickOption pick l none
        rw [hl] at hsome
        obtain rfl : l = [] := by simpa using hsome
        intro h
        obtain rfl : y = x := Option.some.inj h
        exact .first y
      | some b =>
        have hb := ih hl
        intro h
        obtain rfl : pick b y = x := Option.some.inj h
        rcases hpick b y with ⟨htakes, hy⟩ | ⟨hnot, hx⟩
        · rw [hy]
          exact .falls hb htakes
        · rw [hx]
          exact .stays hb hnot
  · intro h
    induction h with
    | first x => rfl
    | @stays l x y _ hxy ih =>
      rw [List.foldl_concat, ih]
      exact congrArg some ((hpick x y).resolve_left fun h => hxy h.1).2
    | @falls l x y _ hxy ih =>
      rw [List.foldl_concat, ih]
      exact congrArg some ((hpick x y).resolve_right fun h => h.1 hxy).2

omit [LinearOrder ρ] in
/-- Something does, where there is something. -/
theorem exists_prevails (takesOver : α → α → Prop) {l : List α} (h : l ≠ []) :
    ∃ x, Prevails takesOver l x := by
  induction l using List.reverseRecOn with
  | nil => exact absurd rfl h
  | append_singleton l y ih =>
    by_cases hl : l = []
    · subst hl
      exact ⟨y, .first y⟩
    · obtain ⟨x, hx⟩ := ih hl
      by_cases hxy : takesOver y x
      · exact ⟨y, .falls hx hxy⟩
      · exact ⟨x, .stays hx hxy⟩

omit [LinearOrder ρ] in
/-- What prevails is one of the elements. -/
theorem Prevails.mem {takesOver : α → α → Prop} {l : List α} {x : α}
    (h : Prevails takesOver l x) : x ∈ l := by
  induction h with
  | first x => exact List.mem_singleton_self x
  | stays h hxy ih => exact List.mem_append_left _ ih
  | falls h hxy ih => exact List.mem_append_right _ (List.mem_singleton_self _)

omit [LinearOrder ρ] in
/-- A first element that nothing takes over from prevails. -/
theorem Prevails.eq_head {takesOver : α → α → Prop} {l : List α} {x a : α}
    (h : Prevails takesOver l x) (hhead : l.head? = some a) (hstays : ∀ b ∈ l, ¬ takesOver b a) :
    x = a := by
  have hshort : ∀ {l : List α} {x y : α}, Prevails takesOver l x →
      (l ++ [y]).head? = some a → l.head? = some a := by
    intro l x y hl hhead
    rwa [List.head?_append_of_ne_nil _ (List.ne_nil_of_mem hl.mem)] at hhead
  induction h with
  | first x => exact Option.some.inj hhead
  | stays h hxy ih => exact ih (hshort h hhead) fun b hb => hstays b (List.mem_append_left _ hb)
  | @falls l x y h hxy ih =>
    obtain rfl := ih (hshort h hhead) fun b hb => hstays b (List.mem_append_left _ hb)
    exact absurd hxy (hstays y (List.mem_append_right _ (List.mem_singleton_self y)))

namespace ChoosesMax

variable {pick : α → α → α} {rank : α → ρ} {C : Set α}

theorem mem_pick (h : ChoosesMax pick rank C) {a b : α} (ha : a ∈ C) (hb : b ∈ C) :
    pick a b ∈ C := by
  rcases h.choice a b with hp | hp <;> rw [hp] <;> assumption

theorem mem_pickOption (h : ChoosesMax pick rank C) {a b : Option α} (ha : ∀ x ∈ a, x ∈ C)
    (hb : ∀ x ∈ b, x ∈ C) : ∀ x ∈ pickOption pick a b, x ∈ C := by
  cases a with
  | none => exact hb
  | some a =>
    cases b with
    | none => exact ha
    | some b =>
      simp only [pickOption, Option.mem_some_iff, forall_eq'] at *
      exact h.mem_pick ha hb

/-- **Selecting takes the larger rank**, a missing element ranking lowest. -/
theorem optRank_pickOption (h : ChoosesMax pick rank C) {a b : Option α} (ha : ∀ x ∈ a, x ∈ C)
    (hb : ∀ x ∈ b, x ∈ C) :
    optRank rank (pickOption pick a b) = max (optRank rank a) (optRank rank b) := by
  cases a with
  | none => simp [pickOption]
  | some a =>
    cases b with
    | none => simp [pickOption]
    | some b =>
      have hrank := h.rank_pick (ha a rfl) (hb b rfl)
      simp [pickOption, hrank]

/-- Folding the selector over a list stays among the elements. -/
theorem mem_foldl (h : ChoosesMax pick rank C) {l : List α} (hl : ∀ a ∈ l, a ∈ C) {o : Option α}
    (ho : ∀ x ∈ o, x ∈ C) : ∀ x ∈ l.foldl (fun o a => pickOption pick o (some a)) o, x ∈ C := by
  induction l generalizing o with
  | nil => exact ho
  | cons a l ih =>
    exact ih (fun b hb => hl b (by simp [hb]))
      (h.mem_pickOption ho (by simpa using hl a (by simp)))

/-- **Folding the selector over a list** reaches the largest rank in it. -/
theorem optRank_foldl (h : ChoosesMax pick rank C) {l : List α} (hl : ∀ a ∈ l, a ∈ C) {o : Option α}
    (ho : ∀ x ∈ o, x ∈ C) :
    optRank rank (l.foldl (fun o a => pickOption pick o (some a)) o)
      = max (optRank rank o) (topRank rank l) := by
  induction l generalizing o with
  | nil => simp
  | cons a l ih =>
    have ha : ∀ x ∈ some a, x ∈ C := by simpa using hl a (by simp)
    rw [List.foldl_cons, ih (fun b hb => hl b (by simp [hb])) (h.mem_pickOption ho ha),
      h.optRank_pickOption ho ha]
    simp [max_assoc]

end ChoosesMax

end TftAnalytics

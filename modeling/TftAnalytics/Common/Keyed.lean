import TftAnalytics.Common.Grouping
import Mathlib.Logic.Function.Basic
/-!
# Common — machines run key by key

One machine for every key, and events that each go to the machine of
their key. The events of different keys do not meet, so that two
interleavings of the same events under every key report the same, up to
the order of the reports.
-/

namespace TftAnalytics

variable {κ σ β γ : Type} [DecidableEq κ]

/-- A machine that may report on an event. -/
structure Machine (σ β γ : Type) where
  next : σ → β → σ
  report : σ → β → Option γ

namespace Machine

variable (M : Machine σ β γ)

/-- The reports on a run of one machine. -/
def reports : σ → List β → List γ
  | _, [] => []
  | s, b :: bs => (M.report s b).toList ++ reports (M.next s b) bs

/-- One event under its key. -/
def keyedNext (states : κ → σ) (p : κ × β) : κ → σ :=
  Function.update states p.1 (M.next (states p.1) p.2)

/-- The machines after a run over the events of all keys. -/
def keyedRun (states : κ → σ) (pairs : List (κ × β)) : κ → σ := pairs.foldl M.keyedNext states

/-- The reports on such a run, with their keys. -/
def keyedReports : (κ → σ) → List (κ × β) → List (κ × γ)
  | _, [] => []
  | states, p :: pairs =>
    (M.report (states p.1) p.2).toList.map (Prod.mk p.1)
      ++ keyedReports (M.keyedNext states p) pairs

variable {M}

theorem reports_append (s : σ) (xs ys : List β) :
    M.reports s (xs ++ ys) = M.reports s xs ++ M.reports (xs.foldl M.next s) ys := by
  induction xs generalizing s with
  | nil => rfl
  | cons x xs ih =>
    rw [List.cons_append, reports, ih, reports, List.append_assoc]
    rfl

theorem keyedReports_append (states : κ → σ) (ps qs : List (κ × β)) :
    M.keyedReports states (ps ++ qs)
      = M.keyedReports states ps ++ M.keyedReports (M.keyedRun states ps) qs := by
  induction ps generalizing states with
  | nil => rfl
  | cons p ps ih =>
    rw [List.cons_append, keyedReports, ih, keyedReports, List.append_assoc]
    rfl

theorem valuesAt_mk (key k : κ) (xs : List γ) :
    valuesAt (xs.map (Prod.mk key)) k = if key = k then xs else [] := by
  induction xs with
  | nil => split_ifs <;> rfl
  | cons x xs ih =>
    have hcons : (x :: xs).map (Prod.mk key) = [(key, x)] ++ xs.map (Prod.mk key) := rfl
    rw [hcons, valuesAt_append, valuesAt_singleton, ih]
    split_ifs <;> rfl

theorem keyedNext_apply (states : κ → σ) (p : κ × β) (key : κ) :
    M.keyedNext states p key = if p.1 = key then M.next (states key) p.2 else states key := by
  unfold keyedNext
  by_cases h : p.1 = key
  · subst h
    rw [Function.update_self, if_pos rfl]
  · rw [Function.update_of_ne (Ne.symm h), if_neg h]

/-- **A machine sees the events of its key**, in their order. -/
theorem keyedRun_apply (states : κ → σ) (pairs : List (κ × β)) (key : κ) :
    M.keyedRun states pairs key = (valuesAt pairs key).foldl M.next (states key) := by
  induction pairs generalizing states with
  | nil => rfl
  | cons p pairs ih =>
    rw [valuesAt_cons, List.foldl_append]
    refine (ih (M.keyedNext states p)).trans ?_
    rw [keyedNext_apply]
    split_ifs <;> rfl

/-- **And reports on these alone.** -/
theorem valuesAt_keyedReports (states : κ → σ) (pairs : List (κ × β)) (key : κ) :
    valuesAt (M.keyedReports states pairs) key
      = M.reports (states key) (valuesAt pairs key) := by
  induction pairs generalizing states with
  | nil => rfl
  | cons p pairs ih =>
    rw [keyedReports, valuesAt_append, ih, valuesAt_mk, keyedNext_apply, valuesAt_cons]
    by_cases h : p.1 = key
    · subst h
      rw [if_pos rfl, if_pos rfl, if_pos rfl]
      rfl
    · rw [if_neg h, if_neg h, if_neg h]
      rfl

end Machine

/-- Pairs that are the same under every key are the same pairs. -/
theorem perm_of_valuesAt {xs ys : List (κ × γ)} (h : ∀ key, valuesAt xs key = valuesAt ys key) :
    xs.Perm ys := by
  classical
  refine List.perm_iff_count.mpr fun p => ?_
  have hcount : ∀ zs : List (κ × γ), zs.count p = (valuesAt zs p.1).count p.2 := by
    intro zs
    induction zs with
    | nil => rfl
    | cons z zs ih =>
      have hcons : valuesAt (z :: zs) p.1 = valuesAt [z] p.1 ++ valuesAt zs p.1 :=
        valuesAt_append [z] zs p.1
      rw [hcons, valuesAt_singleton, List.count_append, ← ih, List.count_cons, Nat.add_comm]
      obtain ⟨k, x⟩ := z
      by_cases hk : k = p.1
      · subst hk
        simp [List.count_singleton, Prod.ext_iff]
      · simp [hk, Prod.ext_iff]
  rw [hcount, hcount, h]

/-- **Interleavings report the same.** -/
theorem Machine.keyedReports_perm (M : Machine σ β γ) (states : κ → σ) {ps qs : List (κ × β)}
    (h : ∀ key, valuesAt ps key = valuesAt qs key) :
    (M.keyedReports states ps).Perm (M.keyedReports states qs) := by
  refine perm_of_valuesAt fun key => ?_
  rw [Machine.valuesAt_keyedReports, Machine.valuesAt_keyedReports, h]

end TftAnalytics

import Mathlib.Data.Bool.Count
import Mathlib.Data.List.Basic
import Mathlib.Data.List.Count
import Mathlib.Data.List.Induction
import Mathlib.Logic.Function.Basic
/-!
# Common — operations on a shared cell

Operations that load a cell, compute a new value from what they loaded and
save it, three steps each, with the steps of others in between. Of two
operations that overlap, the one that saves last saves what it computed
from the value at the start.
-/

namespace TftAnalytics

namespace SharedCell

variable {ι σ : Type}

/-- Where an operation is, with what it has loaded or is about to save. -/
inductive Phase (σ : Type) where
  | start
  | loaded (x : σ)
  | computed (y : Option σ)
  | done

/-- One step of an operation on a cell: the phase after it and the value. An
operation that computes nothing saves nothing. -/
def Phase.step (op : σ → Option σ) (value : σ) : Phase σ → Phase σ × σ
  | .start => (.loaded value, value)
  | .loaded x => (.computed (op x), value)
  | .computed y => (.done, y.getD value)
  | .done => (.done, value)

/-- The cell, and where the operations are. -/
structure State (ι σ : Type) where
  value : σ
  phase : ι → Phase σ

/-- The state before all operations. -/
def State.start (x : σ) : State ι σ := ⟨x, fun _ => .start⟩

/-- An operation on its own. -/
def apply (op : σ → Option σ) (x : σ) : σ := (op x).getD x

variable [DecidableEq ι] (op : ι → σ → Option σ)

/-- A step of one of the operations. -/
def State.move (s : State ι σ) (i : ι) : State ι σ :=
  { value := ((s.phase i).step (op i) s.value).2
    phase := Function.update s.phase i ((s.phase i).step (op i) s.value).1 }

/-- The state after steps in the order of a schedule. -/
def run (schedule : List ι) (s : State ι σ) : State ι σ := schedule.foldl (State.move op) s

theorem phase_move (s : State ι σ) (i j : ι) : (s.move op i).phase j
    = if j = i then ((s.phase i).step (op i) s.value).1 else s.phase j :=
  Function.update_apply ..

theorem run_append (s₁ s₂ : List ι) (s : State ι σ) :
    run op (s₁ ++ s₂) s = run op s₂ (run op s₁ s) := List.foldl_append ..

/-- The phase of an operation that has loaded `x`, after some steps. -/
def Phase.after (op : σ → Option σ) (x : σ) : ℕ → Phase σ
  | 0 => .start
  | 1 => .loaded x
  | 2 => .computed (op x)
  | _ + 3 => .done

/-- **Until an operation saves** the cell is as it was. -/
theorem run_before_save {schedule : List ι} (h : ∀ i, schedule.count i ≤ 2) (x : σ) :
    run op schedule (.start x) = ⟨x, fun i => .after (op i) x (schedule.count i)⟩ := by
  induction schedule using List.reverseRecOn with
  | nil => rfl
  | append_singleton schedule i ih =>
    have hbefore : ∀ j, schedule.count j ≤ 2 := fun j =>
      Nat.le_trans ((List.sublist_append_left _ _).count_le j) (h j)
    have hcount : schedule.count i ≤ 1 := by
      have hi := h i
      rw [List.count_append, List.count_singleton_self] at hi
      omega
    have hstep : (Phase.after (op i) x (schedule.count i)).step (op i) x
        = (.after (op i) x (schedule.count i + 1), x) := by
      rcases hc : schedule.count i with _ | _ | n
      · rfl
      · rfl
      · omega
    rw [run_append, ih hbefore]
    show State.mk _ _ = _
    rw [hstep]
    congr 1
    funext j
    rw [List.count_append]
    by_cases hj : j = i
    · subst hj
      rw [Function.update_self, List.count_singleton_self]
    · rw [Function.update_of_ne hj, List.count_singleton, if_neg (by simpa using Ne.symm hj)]
      rfl

/-- **The first save** is of what was computed from the start. -/
theorem run_first_save {schedule : List ι} (h : ∀ j, schedule.count j ≤ 2) {i : ι}
    (hi : schedule.count i = 2) (x : σ) :
    (run op (schedule ++ [i]) (.start x)).value = apply (op i) x ∧
      ∀ j ≠ i, (run op (schedule ++ [i]) (.start x)).phase j
        = .after (op j) x (schedule.count j) := by
  rw [run_append, run_before_save op h]
  constructor
  · show ((Phase.after (op i) x (schedule.count i)).step (op i) x).2 = _
    rw [hi]
    rfl
  · intro j hj
    exact Function.update_of_ne hj _ _

/-- **An operation that starts now** and is not interrupted. -/
theorem run_from_start {s : State ι σ} {i : ι} (h : s.phase i = .start) :
    (run op [i, i, i] s).value = apply (op i) s.value := by
  simp [run, State.move, h, Phase.step, apply]

/-- **The rest of an operation** that has loaded before. -/
theorem run_rest {s : State ι σ} {i : ι} {x : σ} {c n : ℕ} (h : s.phase i = .after (op i) x c)
    (hc : 1 ≤ c) (hn : 1 ≤ n) (hsum : c + n = 3) :
    (run op (List.replicate n i) s).value = (op i x).getD s.value := by
  have hcases : c = 1 ∧ n = 2 ∨ c = 2 ∧ n = 1 := by omega
  rcases hcases with ⟨rfl, rfl⟩ | ⟨rfl, rfl⟩
  · simp [run, State.move, h, Phase.after, Phase.step]
  · simp [run, State.move, h, Phase.after, Phase.step]

/-! ## All steps taken -/

/-- How many steps an operation has taken. -/
def Phase.taken : Phase σ → ℕ
  | .start => 0
  | .loaded _ => 1
  | .computed _ => 2
  | .done => 3

theorem taken_run (schedule : List ι) (x : σ) (i : ι) :
    ((run op schedule (.start x)).phase i).taken = min 3 (schedule.count i) := by
  induction schedule using List.reverseRecOn with
  | nil => rfl
  | append_singleton schedule j ih =>
    rw [run_append, List.count_append]
    show (((run op schedule (.start x)).move op j).phase i).taken = _
    rw [phase_move]
    by_cases hi : i = j
    · subst hi
      rw [if_pos rfl, List.count_singleton_self]
      rcases hphase : (run op schedule (.start x)).phase i with _ | y | y | _ <;>
        rw [hphase] at ih <;> simp only [Phase.taken, Phase.step] at ih ⊢ <;> omega
    · rw [if_neg hi, List.count_singleton, if_neg (by simpa using Ne.symm hi)]
      exact ih

/-- **An operation with three steps in the schedule finishes.** -/
theorem run_done {schedule : List ι} {i : ι} (h : schedule.count i = 3) (x : σ) :
    (run op schedule (.start x)).phase i = .done := by
  have htaken := taken_run op schedule x i
  rw [h] at htaken
  rcases hphase : (run op schedule (.start x)).phase i with _ | y | y | _ <;>
    rw [hphase] at htaken <;> simp only [Phase.taken] at htaken <;> omega

/-! ## Two operations -/

/-- A schedule of two operations, with all steps of each. -/
def Interleaves (schedule : List Bool) : Prop := ∀ i, schedule.count i = 3

/-- **One after the other.** -/
def Sequential (schedule : List Bool) : Prop := ∃ i, schedule = [!i, !i, !i, i, i, i]

/-- Cut after the last step of the other operation. -/
theorem exists_tail {schedule : List Bool} {i : Bool} (h : (!i) ∈ schedule) :
    ∃ before n, schedule = before ++ [!i] ++ List.replicate n i := by
  induction schedule using List.reverseRecOn with
  | nil => cases h
  | append_singleton schedule j ih =>
    by_cases hj : j = i
    · subst hj
      obtain ⟨before, n, rfl⟩ := ih (by simpa using h)
      exact ⟨before, n + 1, by rw [List.replicate_succ', List.append_assoc]⟩
    · obtain rfl := Bool.eq_not.mpr hj
      exact ⟨schedule, 0, by simp⟩

/-- **Where the other operation saves**: it has three steps by then, and the
last one has those that are not behind it. -/
theorem Interleaves.cut {schedule : List Bool} (h : Interleaves schedule) :
    ∃ i before n, schedule = before ++ [!i] ++ List.replicate n i ∧ schedule.getLast? = some i ∧
      before.count (!i) = 2 ∧ before.count i + n = 3 ∧ 1 ≤ n := by
  rcases List.eq_nil_or_concat' schedule with rfl | ⟨init, i, rfl⟩
  · exact absurd (h true) (by decide)
  obtain ⟨before, n, hcut⟩ := exists_tail (List.count_pos_iff.mp (by rw [h (!i)]; omega))
  have hlast : (init ++ [i]).getLast? = some i := List.getLast?_concat ..
  have hself := h i
  have hother := h (!i)
  rw [hcut] at hself hother
  simp only [List.count_append, List.count_singleton, List.count_replicate] at hself hother
  simp at hself hother
  refine ⟨i, before, n, hcut, hlast, hother, hself, ?_⟩
  -- the last step is its own
  rcases n with _ | n
  · rw [hcut] at hlast
    simp at hlast
  · omega

/-- A tail of one or two steps is an overlap. -/
theorem not_sequential_of_tail {before : List Bool} {i : Bool} {n : ℕ} (hpos : 1 ≤ n)
    (hle : n ≤ 2) : ¬ Sequential (before ++ [!i] ++ List.replicate n i) := by
  rintro ⟨j, hj⟩
  have hrev := congrArg List.reverse hj
  have hn : n = 1 ∨ n = 2 := by omega
  rcases hn with rfl | rfl <;> simp at hrev <;> obtain ⟨rfl, hne, -⟩ := hrev <;> simp at hne

/-- **The cell after two operations.** Where they do not overlap each does
its work on what the other left; else the one that saves last works on what
was there at the start. -/
theorem run_two (op : Bool → σ → Option σ) {schedule : List Bool} (h : Interleaves schedule)
    (x : σ) :
    ∃ i, schedule.getLast? = some i ∧
      (Sequential schedule →
        (run op schedule (.start x)).value = apply (op i) (apply (op !i) x)) ∧
      (¬ Sequential schedule →
        (run op schedule (.start x)).value = (op i x).getD (apply (op !i) x)) := by
  obtain ⟨i, before, n, hcut, hlast, hother, hself, hpos⟩ := h.cut
  have hle : ∀ j, before.count j ≤ 2 := by
    intro j
    by_cases hj : j = i
    · rw [hj]
      omega
    · rw [Bool.eq_not.mpr hj]
      omega
  obtain ⟨hvalue, hphase⟩ := run_first_save op hle hother x
  have hi := hphase i (by simp)
  have hrun : run op schedule (.start x)
      = run op (List.replicate n i) (run op (before ++ [!i]) (.start x)) := by
    rw [hcut, run_append]
  rcases Nat.eq_zero_or_pos (before.count i) with hcount | hcount
  · -- the last one has not started before the other is done
    obtain rfl : n = 3 := by omega
    have hseq : Sequential schedule := by
      have hbefore : before = List.replicate 2 (!i) := by
        refine List.eq_replicate_iff.mpr ⟨?_, fun j hj => Bool.eq_not.mpr fun hji => ?_⟩
        · rw [← List.count_not_add_count before i]
          omega
        · exact List.count_eq_zero.mp hcount (hji ▸ hj)
      exact ⟨i, by rw [hcut, hbefore]; rfl⟩
    rw [hcount] at hi
    refine ⟨i, hlast, fun _ => ?_, fun h => absurd hseq h⟩
    rw [hrun, ← hvalue]
    exact run_from_start op hi
  · -- it has loaded the cell before the other saves
    have hseq : ¬ Sequential schedule := by
      rw [hcut]
      exact not_sequential_of_tail hpos (by omega)
    refine ⟨i, hlast, fun h => absurd h hseq, fun _ => ?_⟩
    rw [hrun, ← hvalue]
    exact run_rest op hi hcount hpos hself

end SharedCell

end TftAnalytics

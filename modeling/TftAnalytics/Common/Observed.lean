import TftAnalytics.Common.Keyed
/-!
# Common — machines and their logs

What is proved of a machine and of the log of its reports, from the rule
for one event. The log may be longer than the run: it starts with what was
reported before.
-/

namespace TftAnalytics

namespace Machine

variable {σ β γ : Type} {M : Machine σ β γ}

/-- The log after one event. -/
def logged (M : Machine σ β γ) (log : List γ) (s : σ) (b : β) : List γ :=
  log ++ (M.report s b).toList

variable {P : List γ → σ → Prop} {bs : List β} {log : List γ} {s : σ}

/-- **What every event keeps** of log and state holds after a run. -/
theorem invariant_run
    (hstep : ∀ b ∈ bs, ∀ log s, P log s → P (M.logged log s b) (M.next s b)) (h : P log s) :
    P (log ++ M.reports s bs) (bs.foldl M.next s) := by
  induction bs generalizing log s with
  | nil => simpa [reports] using h
  | cons b bs ih =>
    have hrest := ih (fun b hb => hstep b (List.mem_cons_of_mem _ hb))
      (hstep b List.mem_cons_self log s h)
    rwa [logged, List.append_assoc] at hrest

/-- **Every report** is made in a state with the invariant, and what the
rule says of it holds of the log up to it. -/
theorem report_of_run {Q : List γ → γ → Prop}
    (hstep : ∀ b ∈ bs, ∀ log s, P log s → P (M.logged log s b) (M.next s b))
    (hreport : ∀ b ∈ bs, ∀ log s c, P log s → M.report s b = some c → Q log c) (h : P log s)
    {pre post : List γ} {c : γ} (hc : M.reports s bs = pre ++ c :: post) : Q (log ++ pre) c := by
  induction bs generalizing log s pre with
  | nil => simp [reports] at hc
  | cons b bs ih =>
    have hstep' := fun c hc => hstep c (List.mem_cons_of_mem b hc)
    have hreport' := fun c hc => hreport c (List.mem_cons_of_mem b hc)
    have hkeep := hstep b List.mem_cons_self log s h
    rw [reports] at hc
    rcases hb : M.report s b with _ | d
    · rw [logged, hb, Option.toList_none, List.append_nil] at hkeep
      exact ih hstep' hreport' hkeep (by simpa [hb] using hc)
    · rw [hb, Option.toList_some, List.singleton_append] at hc
      rcases pre with _ | ⟨d', pre⟩
      · -- it is the report of this event
        rw [List.nil_append] at hc
        obtain ⟨rfl, -⟩ := List.cons.inj hc
        rw [List.append_nil]
        exact hreport b List.mem_cons_self log s d h hb
      · rw [List.cons_append] at hc
        obtain ⟨rfl, hrest⟩ := List.cons.inj hc
        rw [logged, hb, Option.toList_some] at hkeep
        have hq := ih hstep' hreport' hkeep hrest
        rwa [List.append_assoc, List.singleton_append] at hq

end Machine

end TftAnalytics

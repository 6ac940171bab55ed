import TftAnalytics.Metastore.Model.Concurrent
/-!
# Pipeline — what goroutines store and read

In every interleaving what is stored was written, what has returned stays
so, and a read in its course has begun.
-/

namespace TftAnalytics

namespace Metastore

variable {env : Env} {σ : Shared} {W : StatEntry → Prop}

/-- All that goroutines write is so. -/
structure Shared.Sourced (W : StatEntry → Prop) (σ : Shared) : Prop where
  stored : ∀ e ∈ σ.stored, W e
  writing : ∀ t e, σ.calls t = some (.writing e) → W e

theorem Shared.Sourced.goto (h : σ.Sourced W) (t : ℕ) (stage : Option Stage)
    (hstage : ∀ e, stage = some (.writing e) → W e) : (σ.goto t stage).Sourced W := by
  refine ⟨h.stored, fun u e hu => ?_⟩
  simp only [Shared.goto, Function.update_apply] at hu
  split_ifs at hu
  · exact hstage e hu
  · exact h.writing u e hu

theorem Shared.Sourced.invoke (h : σ.Sourced W) (t : ℕ) {stage : Stage}
    (hstage : ∀ e, stage = .writing e → W e) : (σ.invoke t stage).Sourced W := by
  unfold Shared.invoke
  cases σ.calls t with
  | none => exact h.goto t _ fun e he => hstage e (Option.some.inj he)
  | some _ => exact h

theorem Shared.Sourced.advance (h : σ.Sourced W) (t : ℕ) : (σ.advance env t).Sourced W := by
  unfold Shared.advance
  cases hc : σ.calls t with
  | none => exact h
  | some stage =>
    cases stage with
    | writing e =>
      simp only
      split
      · rename_i err _
        have hgoto := h.goto t (some (.wrote e err)) (by simp)
        refine ⟨fun x hx => ?_, hgoto.writing⟩
        simp only at hx
        split_ifs at hx
        · exact h.stored x hx
        · rcases List.mem_cons.mp hx with rfl | hx
          · exact h.writing t _ hc
          · exact h.stored x hx
      · exact h
    | wrote e err =>
      have hgoto := h.goto t none (by simp)
      exact ⟨hgoto.stored, hgoto.writing⟩
    | flushing =>
      simp only
      split
      · have hgoto := h.goto t (some .flushed) (by simp)
        exact ⟨hgoto.stored, hgoto.writing⟩
      · exact h
    | flushed => exact h.goto t none (by simp)
    | reading key before =>
      simp only
      have hgoto := fun r => h.goto t (some (.found key before r)) (by simp)
      have hgoto' := h.goto t (some (.missed key before)) (by simp)
      cases (σ.store.tree.readCache env.codec key).1 with
      | none => exact ⟨hgoto'.stored, hgoto'.writing⟩
      | some r => exact ⟨(hgoto r).stored, (hgoto r).writing⟩
    | missed key before =>
      have hgoto := h.goto t (some (.found key before
        (σ.store.tree.readLocked env.codec key).1)) (by simp)
      exact ⟨hgoto.stored, hgoto.writing⟩
    | found key before result => exact h.goto t none (by simp)

/-- **What is stored was written.** -/
theorem Shared.sourced_run (env : Env) (maxMemBytes : ℤ) (moves : List (ℕ × Move))
    (hmoves : ∀ move ∈ moves, ∀ e, move.2 = .write e → W e) :
    (Shared.run env maxMemBytes moves).Sourced W := by
  induction moves using List.reverseRecOn with
  | nil => exact ⟨(fun _ he => by cases he), fun _ _ h => by cases h⟩
  | append_singleton moves move ih =>
    have ih := ih fun m hm => hmoves m (List.mem_append_left _ hm)
    have hmove := hmoves move (by simp)
    rw [Shared.run, List.foldl_concat]
    obtain ⟨t, move⟩ := move
    cases move with
    | write e => exact ih.invoke t fun e' he' => hmove e' (by rw [Stage.writing.inj he'])
    | flush => exact ih.invoke t fun _ h => by cases h
    | read key => exact ih.invoke t fun _ h => by cases h
    | advance => exact ih.advance t

/-- What has returned stays so. -/
theorem Shared.returned_subset (env : Env) (σ : Shared) (move : ℕ × Move) :
    σ.returned ⊆ (σ.step env move).returned := by
  obtain ⟨t, move⟩ := move
  have hinvoke : ∀ stage, (σ.invoke t stage).returned = σ.returned := by
    intro stage
    unfold Shared.invoke
    cases σ.calls t <;> rfl
  cases move with
  | write e => exact (hinvoke _).symm ▸ List.Subset.refl _
  | flush => exact (hinvoke _).symm ▸ List.Subset.refl _
  | read key => exact (hinvoke _).symm ▸ List.Subset.refl _
  | advance =>
    show σ.returned ⊆ (σ.advance env t).returned
    unfold Shared.advance
    cases σ.calls t with
    | none => exact List.Subset.refl _
    | some stage =>
      cases stage with
      | wrote e err =>
        simp only
        split_ifs
        · exact List.Subset.refl _
        · exact List.subset_cons_self e _
      | writing e =>
        simp only
        split <;> exact List.Subset.refl _
      | flushing =>
        simp only
        split <;> exact List.Subset.refl _
      | _ => exact List.Subset.refl _

/-- What a read in its course was asked for, and what had returned when it
began. -/
def Stage.asked : Stage → Option (GoString × List StatEntry)
  | .reading key before => some (key, before)
  | .missed key before => some (key, before)
  | .found key before _ => some (key, before)
  | _ => none

theorem Shared.asked_goto (t u : ℕ) (stage : Option Stage) {q : GoString × List StatEntry}
    (h : ((σ.goto t stage).calls u).bind Stage.asked = some q) :
    (σ.calls u).bind Stage.asked = some q ∨ u = t ∧ stage.bind Stage.asked = some q := by
  simp only [Shared.goto, Function.update_apply] at h
  split_ifs at h with hu
  · exact Or.inr ⟨hu, h⟩
  · exact Or.inl h

theorem Shared.asked_invoke (t u : ℕ) (stage : Stage) {q : GoString × List StatEntry}
    (h : ((σ.invoke t stage).calls u).bind Stage.asked = some q) :
    (σ.calls u).bind Stage.asked = some q ∨ u = t ∧ stage.asked = some q := by
  unfold Shared.invoke at h
  cases hc : σ.calls t with
  | none =>
    rw [hc] at h
    exact Shared.asked_goto t u (some stage) h
  | some _ =>
    rw [hc] at h
    exact Or.inl h

theorem Shared.asked_advance (t u : ℕ) {q : GoString × List StatEntry}
    (h : ((σ.advance env t).calls u).bind Stage.asked = some q) :
    (σ.calls u).bind Stage.asked = some q := by
  unfold Shared.advance at h
  cases hc : σ.calls t with
  | none =>
    rw [hc] at h
    exact h
  | some stage =>
    rw [hc] at h
    -- a goroutine at a stage goes on to one that was asked the same
    have hnext : ∀ next : Option Stage, (∀ q, next.bind Stage.asked = some q →
        stage.asked = some q) → ((σ.goto t next).calls u).bind Stage.asked = some q →
        (σ.calls u).bind Stage.asked = some q := by
      intro next hkeeps h
      rcases Shared.asked_goto t u next h with h | ⟨rfl, hasked⟩
      · exact h
      · rw [hc]
        exact hkeeps q hasked
    cases stage with
    | writing e =>
      simp only at h
      split at h
      · exact hnext (some (.wrote e _)) (by simp [Stage.asked]) h
      · exact h
    | wrote e err => exact hnext none (by simp) h
    | flushing =>
      simp only at h
      split at h
      · exact hnext (some .flushed) (by simp [Stage.asked]) h
      · exact h
    | flushed => exact hnext none (by simp) h
    | reading key before =>
      simp only at h
      refine hnext _ (fun q hq => ?_) h
      revert hq
      cases (σ.store.tree.readCache env.codec key).1 <;> exact id
    | missed key before => exact hnext _ (fun _ => id) h
    | found key before result => exact hnext none (by simp) h

/-- **A read in its course has begun**, or begins with this move. -/
theorem Shared.asked_step (move : ℕ × Move) (u : ℕ) {q : GoString × List StatEntry}
    (h : ((σ.step env move).calls u).bind Stage.asked = some q) :
    (σ.calls u).bind Stage.asked = some q ∨ move = (u, .read q.1) ∧ q.2 = σ.returned := by
  obtain ⟨t, move⟩ := move
  cases move with
  | write e =>
    rcases Shared.asked_invoke t u _ h with h | ⟨-, h⟩
    · exact Or.inl h
    · cases h
  | flush =>
    rcases Shared.asked_invoke t u _ h with h | ⟨-, h⟩
    · exact Or.inl h
    · cases h
  | read key =>
    rcases Shared.asked_invoke t u _ h with h | ⟨rfl, hasked⟩
    · exact Or.inl h
    · obtain rfl := Option.some.inj hasked
      exact Or.inr ⟨rfl, rfl⟩
  | advance => exact Or.inl (Shared.asked_advance t u h)

end Metastore

end TftAnalytics

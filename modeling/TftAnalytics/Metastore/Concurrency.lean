import TftAnalytics.Metastore.Model.Concurrent
import TftAnalytics.Metastore.Durability
/-!
# Metastore — reads under interleaving

The block cache is read outside the tree's lock, the tree inside it. Both
hold, at every moment, an entry of the largest rank for the key, so what a
read returns is not beaten by any write that had returned before it began,
however many writes, flushes and compactions come in between.
-/

namespace TftAnalytics

namespace Metastore

/-- What is known of a goroutine in its call, from the ranks the tree holds. -/
def Stage.Meets (top : GoString → WithBot (ℤ ×ₗ ℤ)) (stored : List StatEntry) :
    Stage → Prop
  | .wrote e err => err = false → Clocked e ∧ ↑(clockRank e) ≤ top (entryKey e)
  | .writing e => Clocked e
  | .reading key before => ∀ e ∈ before, Clocked e ∧
      (entryKey e = key → ↑(clockRank e) ≤ top key)
  | .missed key before => ∀ e ∈ before, Clocked e ∧
      (entryKey e = key → ↑(clockRank e) ≤ top key)
  | .found key before result =>
      (∀ r ∈ result, r ∈ stored ∧ entryKey r = key) ∧
      ∀ e ∈ before, entryKey e = key → ∃ r, result = some r ∧ ¬ Beats e r
  | _ => True

/-- **The invariant of the interleaving.** -/
structure Shared.Good (env : Env) (σ : Shared) : Prop where
  inv : ∀ P : StatEntry → Prop, (∀ e ∈ σ.stored, P e) → Inv (clockRanking P) env σ.store
  calls : ∀ t, ∀ stage ∈ σ.calls t,
    stage.Meets (σ.store.tree.top (clockRanking fun _ => True) env.codec) σ.stored
  returned : ∀ e ∈ σ.returned, Clocked e ∧
    ↑(clockRank e) ≤ σ.store.tree.top (clockRanking fun _ => True) env.codec (entryKey e)

variable {env : Env} {σ : Shared}

/-- Stages are kept when ranks rise and more is stored. -/
theorem Stage.Meets.mono {top top' : GoString → WithBot (ℤ ×ₗ ℤ)}
    {stored stored' : List StatEntry} {stage : Stage} (h : stage.Meets top stored)
    (htop : ∀ key, top key ≤ top' key) (hstored : ∀ e ∈ stored, e ∈ stored') :
    stage.Meets top' stored' := by
  cases stage with
  | writing e => exact h
  | wrote e err => exact fun herr => ⟨(h herr).1, (h herr).2.trans (htop _)⟩
  | flushing => trivial
  | flushed => trivial
  | reading key before => exact fun e he => ⟨(h e he).1, fun hk => ((h e he).2 hk).trans (htop _)⟩
  | missed key before => exact fun e he => ⟨(h e he).1, fun hk => ((h e he).2 hk).trans (htop _)⟩
  | found key before result => exact ⟨fun r hr => ⟨hstored r (h.1 r hr).1, (h.1 r hr).2⟩, h.2⟩

/-- **A section of goroutine `t`** that raises no rank wrongly, stores what
it should and leaves `t` at a stage that fits. -/
theorem Shared.Good.section (hg : σ.Good env) (t : ℕ) {s : Store} {stored : List StatEntry}
    {stage : Option Stage}
    (hinv : ∀ P : StatEntry → Prop, (∀ e ∈ stored, P e) → Inv (clockRanking P) env s)
    (htop : ∀ key, σ.store.tree.top (clockRanking fun _ => True) env.codec key
      ≤ s.tree.top (clockRanking fun _ => True) env.codec key)
    (hstored : ∀ e ∈ σ.stored, e ∈ stored)
    (hstage : ∀ st ∈ stage, st.Meets (s.tree.top (clockRanking fun _ => True) env.codec) stored) :
    Shared.Good env { σ.goto t stage with store := s, stored := stored } where
  inv := hinv
  calls := by
    intro u st hst
    simp only [Shared.goto, Function.update_apply] at hst
    split_ifs at hst
    · exact hstage st hst
    · exact (hg.calls u st hst).mono htop hstored
  returned := fun e he => ⟨(hg.returned e he).1, (hg.returned e he).2.trans (htop _)⟩

theorem Shared.Good.goto (hg : σ.Good env) (t : ℕ) (stage : Option Stage)
    (hstage : ∀ st ∈ stage,
      st.Meets (σ.store.tree.top (clockRanking fun _ => True) env.codec) σ.stored) :
    (σ.goto t stage).Good env :=
  hg.section t hg.inv (fun _ => le_rfl) (fun _ h => h) hstage

/-- A result of the largest rank is one no earlier write beats. -/
theorem meets_found {key : GoString} {before stored : List StatEntry} {result : Option StatEntry}
    {top : GoString → WithBot (ℤ ×ₗ ℤ)}
    (hbefore : ∀ e ∈ before, Clocked e ∧ (entryKey e = key → ↑(clockRank e) ≤ top key))
    (hresult : ∀ r ∈ result, r ∈ Storable (clockRanking fun e => e ∈ stored) env.codec key)
    (hrank : optRank clockRank result = top key) :
    (Stage.found key before result).Meets top stored := by
  refine ⟨fun r hr => ⟨(hresult r hr).1.1, (hresult r hr).2.1⟩, fun e he hk => ?_⟩
  obtain ⟨hclocked, hle⟩ := hbefore e he
  have hle := hle hk
  rw [← hrank] at hle
  cases result with
  | none => exact absurd hle (by simp)
  | some r =>
    rw [optRank_some, WithBot.coe_le_coe] at hle
    exact ⟨r, rfl, not_beats_of_rank_le hclocked (hresult r rfl).1.2 hle⟩

/-- **The locked section of a write.** -/
theorem Shared.Good.write (hg : σ.Good env) (t : ℕ) {e : StatEntry} (he : Clocked e) {s : Store}
    {err : Bool} (hw : Metastore.write env .ok σ.store e = .returned s err) :
    Shared.Good env { σ.goto t (some (.wrote e err)) with
      store := s
      stored := if env.codec.marshal e = none then σ.stored else e :: σ.stored } := by
  cases hval : env.codec.marshal e with
  | none =>
    rw [Metastore.write, hval] at hw
    obtain ⟨rfl, rfl⟩ : σ.store = s ∧ true = err := by simpa using hw
    rw [if_pos rfl]
    exact hg.section t hg.inv (fun _ => le_rfl) (fun _ h => h) (by rintro _ ⟨⟩ ⟨⟩)
  | some val =>
    rw [if_neg (by simp)]
    have haction : ∀ P : StatEntry → Prop, (∀ x ∈ e :: σ.stored, P x) →
        (Action.write e .ok).Keeps (clockRanking P) env σ.store (.returned s err, 0) := by
      intro P hP
      have hinv := hg.inv P fun x hx => hP x (by simp [hx])
      have hkeeps := hinv.action_write ⟨hP e (by simp), he⟩ .ok
      rw [Action.exit, hw] at hkeeps
      exact hkeeps
    have htrue := haction (fun _ => True) fun _ _ => trivial
    refine hg.section t (fun P hP => (haction P hP).1) htrue.2.1 (fun x hx => by simp [hx]) ?_
    rintro _ ⟨⟩ -
    exact ⟨he, htrue.2.2.2.2.1 e rfl (by simp [hval])⟩

/-- **The locked section of a flush.** -/
theorem Shared.Good.flush (hg : σ.Good env) (t : ℕ) {s : Store} {err : Bool}
    (hf : Metastore.flushLocked env .ok σ.store = .returned s err) :
    Shared.Good env { σ.goto t (some .flushed) with store := s } := by
  have haction : ∀ P : StatEntry → Prop, (∀ x ∈ σ.stored, P x) →
      (Action.flush .ok).Keeps (clockRanking P) env σ.store (.returned s err, 0) := by
    intro P hP
    have hkeeps := (hg.inv P hP).action_flush .ok
    rw [Action.exit, hf] at hkeeps
    exact hkeeps
  have hstage : ∀ st ∈ some Stage.flushed,
      st.Meets (s.tree.top (clockRanking fun _ => True) env.codec) σ.stored := by
    rintro _ ⟨⟩
    trivial
  exact hg.section t (fun P hP => (haction P hP).1)
    (haction (fun _ => True) fun _ _ => trivial).2.1 (fun _ h => h) hstage

/-- **Every section keeps the invariant.** -/
theorem Shared.Good.advance (hg : σ.Good env) (t : ℕ) : (σ.advance env t).Good env := by
  -- the bounds on ranks need no property of the entries, what is found needs `stored`
  have htrue := hg.inv (fun _ => True) fun _ _ => trivial
  have hstored := hg.inv (fun e => e ∈ σ.stored) fun _ h => h
  unfold Shared.advance
  cases hc : σ.calls t with
  | none => exact hg
  | some stage =>
    have hmeets := hg.calls t stage hc
    cases stage with
    | writing e =>
      simp only
      cases hw : Metastore.write env .ok σ.store e with
      | crashed d => exact hg
      | returned s err => exact hg.write t hmeets hw
    | wrote e err =>
      have hgoto := hg.goto t none (by simp)
      cases err with
      | true => exact hgoto
      | false =>
        refine ⟨hgoto.inv, hgoto.calls, fun x hx => ?_⟩
        -- the write that returns now was applied before
        -- the call returns what the tree has held since the write
        rcases List.mem_cons.mp hx with rfl | hx
        · exact hmeets rfl
        · exact hg.returned x hx
    | flushing =>
      simp only
      cases hf : Metastore.flushLocked env .ok σ.store with
      | crashed d => exact hg
      | returned s err => exact hg.flush t hf
    | flushed => exact hg.goto t none (by simp)
    | reading key before =>
      simp only
      refine hg.section t (fun P hP => ((hg.inv P hP).readCache key).2.1)
        (fun k => (congrFun (htrue.readCache key).2.2 k).ge) (fun _ h => h) ?_
      rintro st ⟨⟩
      cases hhit : (σ.store.tree.readCache env.codec key).1 with
      | none => exact hmeets
      | some r =>
        obtain ⟨hr, hrank⟩ := (hstored.readCache key).1 r hhit
        have hmeet : (Stage.found key before (some r)).Meets
            (σ.store.tree.top (clockRanking fun _ => True) env.codec) σ.stored :=
          meets_found hmeets (by simpa using hr) (by rw [optRank_some]; exact hrank)
        exact hmeet
    | missed key before =>
      refine hg.section t (fun P hP => ((hg.inv P hP).readLocked key).2.2.1)
        (fun k => (congrFun (htrue.readLocked key).2.2.2 k).ge) (fun _ h => h) ?_
      rintro st ⟨⟩
      -- filling the cache leaves the ranks, so what was found still meets them
      obtain ⟨hr, hrank, -, -⟩ := hstored.readLocked key
      have hmeet := meets_found hmeets hr hrank
      rw [← (htrue.readLocked key).2.2.2] at hmeet
      exact hmeet
    | found key before result => exact hg.goto t none (by simp)

/-- **Every move keeps the invariant**, written clocks being sound. -/
theorem Shared.Good.step (hg : σ.Good env) {move : ℕ × Move}
    (hmove : ∀ e, move.2 = .write e → Clocked e) : (σ.step env move).Good env := by
  obtain ⟨t, move⟩ := move
  have hinvoke : ∀ stage : Stage,
      stage.Meets (σ.store.tree.top (clockRanking fun _ => True) env.codec) σ.stored →
      (σ.invoke t stage).Good env := by
    intro stage hstage
    unfold Shared.invoke
    cases σ.calls t with
    | none => exact hg.goto t _ (by simpa using hstage)
    | some _ => exact hg
  cases move with
  | write e => exact hinvoke _ (hmove e rfl)
  | flush => exact hinvoke _ trivial
  | read key =>
    refine hinvoke _ fun e he => ⟨(hg.returned e he).1, ?_⟩
    rintro rfl
    exact (hg.returned e he).2
  | advance => exact hg.advance t

theorem Shared.good_run (env : Env) (maxMemBytes : ℤ) (moves : List (ℕ × Move))
    (hclocked : ∀ move ∈ moves, ∀ e, move.2 = .write e → Clocked e) :
    (Shared.run env maxMemBytes moves).Good env := by
  induction moves using List.reverseRecOn with
  | nil =>
    refine ⟨fun P _ => ((recoverable_empty _ _).newLSMTree maxMemBytes).1, ?_, ?_⟩ <;>
      simp [Shared.run, Shared.init]
  | append_singleton moves move ih =>
    rw [Shared.run, List.foldl_append]
    exact (ih fun m hm => hclocked m (by simp [hm])).step (hclocked move (by simp))

/-- **Reads are correct under interleaving.** In every state of every
interleaving of writes, flushes and reads, with clocks of non-negative
counters and sums inside `int64`, a read that has its result returns only
an entry stored under its key; and if a write to that key had returned
before the read began, it returns one, which no such write's entry beats. -/
theorem read_interleaved (env : Env) (maxMemBytes : ℤ) (moves : List (ℕ × Move))
    (hclocked : ∀ move ∈ moves, ∀ e, move.2 = .write e → Clocked e) {t : ℕ} {key : GoString}
    {before : List StatEntry} {result : Option StatEntry}
    (hfound : (Shared.run env maxMemBytes moves).calls t = some (.found key before result)) :
    (∀ r, result = some r →
      r ∈ (Shared.run env maxMemBytes moves).stored ∧ entryKey r = key) ∧
    ∀ e ∈ before, entryKey e = key → ∃ r, result = some r ∧ ¬ Beats e r := by
  exact (Shared.good_run env maxMemBytes moves hclocked).calls t _ hfound

/-- A read that begins after a write has returned, while another write is
between its section and its return. -/
theorem read_interleaved_two :
    (∀ r, some (sampleEntry 98 2) = some r →
      r ∈ (Shared.run sampleEnv 0 [(0, .write (sampleEntry 98 2)), (0, .advance),
        (1, .write (sampleEntry 97 1)), (0, .advance), (2, .read [98, 58, 58, 58]), (1, .advance),
        (2, .advance), (2, .advance)]).stored ∧ entryKey r = [98, 58, 58, 58]) ∧
    ∀ e ∈ [sampleEntry 98 2], entryKey e = [98, 58, 58, 58] →
      ∃ r, some (sampleEntry 98 2) = some r ∧ ¬ Beats e r :=
  read_interleaved sampleEnv 0 _ (by simp; decide) (t := 2) (by rfl)

end Metastore

end TftAnalytics

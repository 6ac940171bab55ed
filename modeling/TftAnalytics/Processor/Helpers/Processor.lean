import TftAnalytics.Processor.Model.Processor
import TftAnalytics.Processor.Helpers.Reorder
/-!
# Processor — what a step can do

Helper layer. The steps of a deployment, one case each for what a thread,
the main thread or the outside can do to it; sums over the threads; and
what the threads and the offset files say has been delivered.
-/

namespace TftAnalytics

namespace Processor

open Metastore (VectorClock)

/-! ## The threads together -/

/-- A sum over the threads, as one of them moves. -/
theorem sum_update (g : ℕ → Stage → ℕ) (threads : ℕ → Stage) (stage : Stage) {i n : ℕ}
    (h : i < n) :
    ((List.range n).map fun j => g j (Function.update threads i stage j)).sum + g i (threads i)
      = ((List.range n).map fun j => g j (threads j)).sum + g i stage := by
  induction n with
  | zero => omega
  | succ n ih =>
    simp only [List.range_succ, List.map_append, List.map_cons, List.map_nil, List.sum_append,
      List.sum_singleton]
    by_cases hi : i = n
    · subst hi
      have hsame : ((List.range i).map fun j => g j (Function.update threads i stage j))
          = (List.range i).map fun j => g j (threads j) := by
        refine List.map_congr_left fun j hj => ?_
        have := List.mem_range.mp hj
        rw [Function.update_of_ne (by omega)]
      rw [hsame, Function.update_self]
      omega
    · have := ih (by omega)
      rw [Function.update_of_ne (Ne.symm hi)]
      omega

namespace Deployment

/-- The clock of the next flush. -/
def flushClock (cfg : Config) (σ : Deployment) : VectorClock :=
  clockOfDict (σ.memory.mergedClock.insert cfg.nodeId (Int64.ofNat (σ.memory.flushSeq + 1)))

/-- **What a step can do.** -/
inductive Moves (cfg : Config) (feed : Feed) (σ : Deployment) : Deployment → Prop
  | idle : Moves cfg feed σ σ
  | load (i : ℕ) (partition : GoString) (hi : cfg.partitions[i]? = some partition)
      (hstage : σ.memory.threads i = .loading) :
      Moves cfg feed σ
        { σ.goto i (.reading (σ.offsets.load partition) (σ.offsets.load partition)) with
          opened := σ.opened ++ [(partition, σ.offsets.load partition)] }
  | receive (i : ℕ) (partition : GoString) (hi : cfg.partitions[i]? = some partition)
      (lastSaved next offset : ℤ) (hstage : σ.memory.threads i = .reading lastSaved next)
      (hnext : next ≤ offset) (event : MatchEvent) (hevent : feed partition offset = some event) :
      Moves cfg feed σ
        { σ.goto i (.putting lastSaved ⟨partition, offset, event⟩) with
          delivered := σ.delivered ++ [⟨partition, offset, event⟩] }
  | reconnect (i : ℕ) (partition : GoString) (hi : cfg.partitions[i]? = some partition)
      (hheld : (σ.memory.threads i).held = []) : Moves cfg feed σ (σ.goto i .loading)
  | put (i : ℕ) (partition : GoString) (hi : cfg.partitions[i]? = some partition)
      (lastSaved : ℤ) (m : Message) (hstage : σ.memory.threads i = .putting lastSaved m)
      (hroom : σ.memory.incoming.length < queueSize) :
      Moves cfg feed σ
        { σ.goto i (.putDone lastSaved m.offset) with
          memory := { (σ.goto i (.putDone lastSaved m.offset)).memory with
            incoming := σ.memory.incoming ++ [m] } }
  | save (i : ℕ) (partition : GoString) (hi : cfg.partitions[i]? = some partition)
      (lastSaved offset : ℤ) (hstage : σ.memory.threads i = .putDone lastSaved offset) :
      Moves cfg feed σ
        { σ.goto i (.reading offset (offset + 1)) with
          offsets := σ.offsets.save partition (offset + 1) }
  | goOn (i : ℕ) (partition : GoString) (hi : cfg.partitions[i]? = some partition)
      (lastSaved offset : ℤ) (hstage : σ.memory.threads i = .putDone lastSaved offset) :
      Moves cfg feed σ (σ.goto i (.reading lastSaved (offset + 1)))
  | drain (drained : ℕ) (hmain : σ.memory.main = .draining drained) (m : Message)
      (incoming : List Message) (hincoming : σ.memory.incoming = m :: incoming) (now : ℚ) :
      Moves cfg feed σ
        { σ with
          memory := { σ.memory with
            main := .draining (drained + 1)
            incoming := incoming
            mergedClock := mergeClock σ.memory.mergedClock m.event
            reorder := σ.memory.reorder.push m now }
          pushed := σ.pushed ++ [m] }
  | popReady (hmain : σ.memory.main = .popping) (now : ℚ) :
      Moves cfg feed σ
        { σ with
          memory := { σ.memory with
            main := .maybeFlush
            reorder := (σ.memory.reorder.popReady now).1
            aggregator := σ.memory.aggregator.processBatch cfg.championCost
              ((σ.memory.reorder.popReady now).2.map (·.event)) }
          aggregated := σ.aggregated ++ (σ.memory.reorder.popReady now).2 }
  | proceed (main : Main) (lastFlush : ℚ)
      (hmain : ∀ clock entries, σ.memory.main ≠ .writing clock entries)
      (hmain' : ∀ clock entries, main ≠ .writing clock entries) :
      Moves cfg feed σ { σ with memory := { σ.memory with main := main, lastFlush := lastFlush } }
  | flush (hmain : σ.memory.main = .maybeFlush) (hfits : σ.memory.flushSeq + 1 < 2 ^ 63) :
      Moves cfg feed σ
        { σ with
          memory := { σ.memory with
            flushSeq := σ.memory.flushSeq + 1
            aggregator := .new
            main := .writing (σ.flushClock cfg) σ.memory.aggregator.flush.2 }
          aggregated := []
          flushes := σ.flushes
            ++ [⟨σ.life, σ.aggregated, σ.flushClock cfg, σ.memory.aggregator.flush.2⟩] }
  | ended (hmain : σ.memory.main = .maybeFlush) :
      Moves cfg feed σ
        { σ with memory := { σ.memory with flushSeq := σ.memory.flushSeq + 1, main := .ended } }
  | write (clock : VectorClock) (entry : Stat) (entries : List Stat)
      (hmain : σ.memory.main = .writing clock (entry :: entries)) (outcome : WriteOutcome) :
      Moves cfg feed σ
        { σ.proceed (.writing clock entries) with
          writes := σ.writes ++ [(clock, entry, outcome)] }
  | finishFlush (clock : VectorClock) (hmain : σ.memory.main = .writing clock []) (now : ℚ) :
      Moves cfg feed σ
        { σ with
          memory := { σ.memory with main := .draining 0, lastFlush := now }
          sent := σ.sent ++ σ.flushes.getLast?.toList }
  | restart (now : ℚ) : Moves cfg feed σ (σ.restart cfg now)

theorem moves_stepThread (cfg : Config) (feed : Feed) (σ : Deployment) (i : ℕ)
    (partition : GoString) (hi : cfg.partitions[i]? = some partition) (a : Action) :
    Moves cfg feed σ (σ.stepThread feed i partition (σ.memory.threads i) a) := by
  unfold stepThread
  split
  · rename_i hstage
    exact .load i partition hi hstage
  · rename_i hstage
    split_ifs with hnext
    · split
      · rename_i hevent
        exact .receive i partition hi _ _ _ hstage hnext _ hevent
      · exact .reconnect i partition hi (by rw [hstage]; rfl)
    · exact .idle
  · rename_i hstage
    exact .reconnect i partition hi (by rw [hstage]; rfl)
  · rename_i hstage
    split_ifs with hroom
    · exact .put i partition hi _ _ hstage hroom
    · exact .idle
  · rename_i hstage
    split_ifs
    · exact .save i partition hi _ _ hstage
    · exact .goOn i partition hi _ _ hstage
  · rename_i hstage
    split_ifs
    · exact .reconnect i partition hi (by rw [hstage]; rfl)
    · exact .idle
  · exact .idle

theorem moves_stepMain (cfg : Config) (feed : Feed) (σ : Deployment) (a : Action) :
    Moves cfg feed σ (σ.stepMain cfg σ.memory.main a) := by
  unfold stepMain
  split
  · rename_i hmain
    split
    · rename_i hincoming
      split_ifs
      · exact .drain _ hmain _ _ hincoming _
      · exact .idle
    · exact .idle
  · rename_i hmain
    split_ifs
    · exact .proceed _ σ.memory.lastFlush (by simp [hmain]) (by simp)
    · exact .idle
  · rename_i hmain
    exact .popReady hmain _
  · rename_i now hmain
    split_ifs
    · exact .proceed _ now (by simp [hmain]) (by simp)
    · unfold flush
      dsimp only
      split_ifs with hfits
      · exact .flush hmain hfits
      · exact .ended hmain
    · exact .proceed _ σ.memory.lastFlush (by simp [hmain]) (by simp)
  · rename_i hmain
    exact .write _ _ _ hmain _
  · rename_i hmain
    exact .finishFlush _ hmain _
  · exact .idle

/-- **Every step is one of these.** -/
theorem moves_step (cfg : Config) (feed : Feed) (σ : Deployment) (a : Action) :
    Moves cfg feed σ (σ.step cfg feed a) := by
  unfold step
  split
  · exact .restart _
  · split
    · exact .idle
    · split
      · split
        · rename_i hi
          exact moves_stepThread cfg feed σ _ _ hi a
        · exact .idle
      · exact moves_stepMain cfg feed σ a

/-- What holds at the start and is kept by what a step can do holds along
every run. -/
theorem run_induction {cfg : Config} {feed : Feed} {offsets : Offsets} {start : ℚ}
    {P : Deployment → Prop} (hinit : P (init offsets start))
    (hmoves : ∀ σ σ', P σ → Moves cfg feed σ σ' → P σ') (actions : List Action) :
    P (run cfg feed offsets start actions) := by
  unfold run
  generalize init offsets start = σ at hinit
  induction actions generalizing σ with
  | nil => exact hinit
  | cons a actions ih => exact ih _ (hmoves σ _ hinit (moves_step cfg feed σ a))

variable {cfg : Config} {feed : Feed} {found : Offsets} {σ σ' : Deployment}

/-! ## What the offset files say -/

/-- What a thread of a partition holds, or has just put, was delivered. -/
def Backed (delivered : List Message) (partition : GoString) : Stage → Prop
  | .putting _ m => m ∈ delivered ∧ m.partition = partition
  | .putDone _ offset => ∃ m ∈ delivered, m.partition = partition ∧ m.offset = offset
  | _ => True

theorem Backed.mono {delivered delivered' : List Message} (hsub : delivered ⊆ delivered')
    {partition : GoString} {stage : Stage} (h : Backed delivered partition stage) :
    Backed delivered' partition stage := by
  unfold Backed at h ⊢
  split at h
  · exact ⟨hsub h.1, h.2⟩
  · obtain ⟨m, hm, heq⟩ := h
    exact ⟨m, hsub hm, heq⟩
  · trivial

/-- **What holds of the offset files**: a file is as it was found, or says
one more than the offset of a message delivered. -/
structure Persisted (cfg : Config) (found : Offsets) (σ : Deployment) : Prop where
  threads : ∀ i partition, cfg.partitions[i]? = some partition →
    Backed σ.delivered partition (σ.memory.threads i)
  offsets : ∀ path, σ.offsets path = found path ∨
    ∃ m ∈ σ.delivered, offsetPath m.partition = path ∧ σ.offsets path = some (m.offset + 1)

/-- A thread moves. -/
theorem Persisted.goto (h : σ.Persisted cfg found) {i : ℕ} {partition : GoString}
    (hi : cfg.partitions[i]? = some partition) (stage : Stage)
    (hstage : Backed σ.delivered partition stage) : (σ.goto i stage).Persisted cfg found where
  threads := by
    intro j p hj
    show Backed σ.delivered p (Function.update σ.memory.threads i stage j)
    by_cases hij : j = i
    · subst hij
      obtain rfl := Option.some.inj (hi.symm.trans hj)
      rw [Function.update_self]
      exact hstage
    · rw [Function.update_of_ne hij]
      exact h.threads j p hj
  offsets := h.offsets

theorem Persisted.moves (h : σ.Persisted cfg found) (hmoves : Moves cfg feed σ σ') :
    σ'.Persisted cfg found := by
  cases hmoves with
  | idle => exact h
  | load i partition hi hstage => exact ⟨(h.goto hi (.reading _ _) trivial).threads, h.offsets⟩
  | receive i partition hi lastSaved next offset hstage hnext event hevent =>
    have hsub : σ.delivered ⊆ σ.delivered ++ [⟨partition, offset, event⟩] :=
      List.subset_append_left _ _
    -- one message more is delivered, and then a thread moves
    have hmono : ({ σ with delivered := σ.delivered ++ [⟨partition, offset, event⟩] } :
        Deployment).Persisted cfg found :=
      ⟨fun j p hj => (h.threads j p hj).mono hsub, fun path => (h.offsets path).imp_right
        fun ⟨m, hm, heq⟩ => ⟨m, hsub hm, heq⟩⟩
    have hmem : (⟨partition, offset, event⟩ : Message)
        ∈ σ.delivered ++ [⟨partition, offset, event⟩] :=
      List.mem_append_right _ (List.mem_singleton.mpr rfl)
    have hgoto := hmono.goto hi (.putting lastSaved ⟨partition, offset, event⟩) ⟨hmem, rfl⟩
    exact ⟨hgoto.threads, hgoto.offsets⟩
  | reconnect i partition hi hheld => exact h.goto hi .loading trivial
  | put i partition hi lastSaved m hstage hroom =>
    have hback := h.threads i partition hi
    rw [hstage] at hback
    have hgoto := h.goto hi (.putDone lastSaved m.offset) ⟨m, hback.1, hback.2, rfl⟩
    exact ⟨hgoto.threads, hgoto.offsets⟩
  | save i partition hi lastSaved offset hstage =>
    have hback := h.threads i partition hi
    rw [hstage] at hback
    obtain ⟨m, hm, hpart, hoff⟩ := hback
    refine ⟨(h.goto hi (.reading offset (offset + 1)) trivial).threads, fun path => ?_⟩
    show σ.offsets.save partition (offset + 1) path = found path ∨ ∃ m ∈ σ.delivered,
      offsetPath m.partition = path ∧
        σ.offsets.save partition (offset + 1) path = some (m.offset + 1)
    unfold Offsets.save
    -- a save changes the file of the partition and no other
    by_cases hpath : path = offsetPath partition
    · subst hpath
      rw [Function.update_self]
      exact Or.inr ⟨m, hm, by rw [hpart], by rw [hoff]⟩
    · rw [Function.update_of_ne hpath]
      exact h.offsets path
  | goOn i partition hi lastSaved offset hstage =>
    exact h.goto hi (.reading lastSaved (offset + 1)) trivial
  | restart => exact ⟨fun _ _ _ => trivial, h.offsets⟩
  | drain | popReady | proceed | flush | ended | write | finishFlush =>
    exact ⟨h.threads, h.offsets⟩

end Deployment

end Processor

end TftAnalytics

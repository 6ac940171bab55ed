import TftAnalytics.Metastore.Helpers.History
/-!
# Metastore — durability across crashes

`Write` returns only after its record is on disk, and a tree opened after
a crash replays what is there. The log is opened in append mode and never
cut back, though, and `Replay` stops at the first incomplete record: what
is appended behind a torn record is not read again. Durability holds for
every history in which the machine does not stop while a record lies
behind a torn one, and fails otherwise.
-/

namespace TftAnalytics

namespace Metastore

/-- A cut history stops no more often. -/
theorem Unburied.take {env : Env} {maxMemBytes : ℤ} {acts : List Action} {h : History}
    (hu : Unburied env maxMemBytes h acts) (n : ℕ) :
    Unburied env maxMemBytes h (acts.take n) := by
  induction acts generalizing h n with
  | nil => simpa using hu
  | cons a acts ih =>
    cases n with
    | zero => trivial
    | succ n => exact ⟨hu.1, ih hu.2 n⟩

/-- A good history is durable. -/
theorem History.Good.durable {P : StatEntry → Prop} {env : Env} {h : History}
    (hg : h.Good (clockRanking P) env) (hacked : ∀ e ∈ h.acked, Clocked e) : h.Durable env := by
  intro e he
  obtain ⟨hst, hrank⟩ := hg.read (entryKey e)
  have hle := hg.acked e he
  cases hread : h.read env (entryKey e) with
  | none =>
    rw [← hrank, hread] at hle
    exact absurd hle (by simp [clockRanking])
  | some r =>
    rw [← hrank, hread, optRank_some, WithBot.coe_le_coe] at hle
    exact ⟨r, rfl, not_beats_of_rank_le (hacked e he) (hst r hread).1.2 hle⟩

/-- What is acknowledged was written. -/
theorem exists_of_mem_acked {env : Env} {maxMemBytes : ℤ} {acts : List Action} {e : StatEntry}
    (he : e ∈ (history env maxMemBytes acts).acked) : ∃ a ∈ acts, e ∈ a.given := by
  induction acts using List.reverseRecOn with
  | nil => simp [history, History.init] at he
  | append_singleton acts a ih =>
    have hold : e ∈ (history env maxMemBytes acts).acked → ∃ b ∈ acts ++ [a], e ∈ b.given := by
      intro h
      obtain ⟨b, hb, hbe⟩ := ih h
      exact ⟨b, List.mem_append_left _ hb, hbe⟩
    rw [history, List.foldl_append, List.foldl_cons, List.foldl_nil, ← history,
      History.step] at he
    split at he
    · rcases List.mem_append.mp he with hack | hacked
      · refine ⟨a, by simp, ?_⟩
        cases a with
        | write e' io =>
          simp only [Action.ack] at hack
          split_ifs at hack
          · simp at hack
          · simpa [Action.given] using (List.mem_singleton.mp hack).symm
        | _ => simp [Action.ack] at hack
      · exact hold hacked
    · exact hold he

/-- **Acknowledged writes are durable where no stop finds a record behind a
torn one.** In every state of such a history, whatever crashes, flushes
and failing flushes it contains, a read of the key of an acknowledged
entry finds an entry that this one does not beat. -/
theorem durable_of_unburied (env : Env) (maxMemBytes : ℤ) (acts : List Action)
    (hclocked : ∀ a ∈ acts, ∀ e ∈ a.given, Clocked e)
    (hunburied : Unburied env maxMemBytes (.init env maxMemBytes) acts) (n : ℕ) :
    (history env maxMemBytes (acts.take n)).Durable env := by
  have hgood := good_history (R := clockRanking fun _ => True)
    (fun a ha e he => ⟨trivial, hclocked a (List.mem_of_mem_take ha) e he⟩) (hunburied.take n)
  refine hgood.durable fun e he => ?_
  obtain ⟨a, ha, hea⟩ := exists_of_mem_acked he
  exact hclocked a (List.mem_of_mem_take ha) e hea

/-! ## A directory on which it fails -/

/-- A crash that leaves one byte of a record, a write, and a crash. -/
def buryingActs : List Action :=
  [.crashWrite (sampleEntry 97 1) 1, .write (sampleEntry 98 2) .ok, .crash 0]

/-- **Durability fails**: the write returned `nil`, its record is synced,
and after the next start its key is not found. -/
theorem not_durable : ¬ ∀ (env : Env) (maxMemBytes : ℤ) (acts : List Action),
    (∀ a ∈ acts, ∀ e ∈ a.given, ∀ p ∈ (clockMap e.clock).entries, 0 ≤ p.2) →
      (history env maxMemBytes acts).Durable env := by
  intro h
  have hacked : sampleEntry 98 2 ∈ (history sampleEnv 0 buryingActs).acked := by decide
  have hread : (history sampleEnv 0 buryingActs).read sampleEnv (entryKey (sampleEntry 98 2))
      = none := by decide
  obtain ⟨r, hr, -⟩ := h sampleEnv 0 buryingActs (by decide) _ hacked
  rw [hread] at hr
  cases hr

/-- A write, a crash inside the record of the next one, a flush and a
crash. -/
def sparedActs : List Action :=
  [.write (sampleEntry 98 2) .ok, .crashWrite (sampleEntry 97 1) 60, .flush .ok, .crash 0]

/-- A torn record does no harm with nothing written behind it. -/
theorem durable_of_unburied_torn : (history sampleEnv 0 sparedActs).Durable sampleEnv :=
  durable_of_unburied sampleEnv 0 sparedActs (by decide) (by decide) 4

end Metastore

end TftAnalytics

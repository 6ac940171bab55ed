import TftAnalytics.Api.RankHistory
import TftAnalytics.Common.SharedCell
/-!
# API — lookups at the same time

Two lookups run in threads of one pool, and each rewrites the whole store
from what it has read, without a lock. Where they overlap, the one that
saves last saves the history of the other player as it was before.
-/

namespace TftAnalytics

namespace Api

open SharedCell

variable {D : Type} [LinearOrder D]

/-- The snapshot is left out: the last one, of another day, shows the same
rank. -/
def Skipped (hist : List (RankSnapshot D)) (snap : RankSnapshot D) : Prop :=
  ∃ last, hist.getLast? = some last ∧ last.date ≠ snap.date ∧ last.sig = snap.sig

omit [LinearOrder D] in
theorem mem_recent_revise [DecidableEq D] {hist : List (RankSnapshot D)} {snap : RankSnapshot D}
    (h : ¬ Skipped hist snap) : snap ∈ recent (revise hist snap) := by
  have hlast : (revise hist snap).getLast? = some snap := by
    unfold revise
    split
    · exact List.getLast?_concat ..
    · rename_i last hlast
      split_ifs with hdate hsig
      · exact List.getLast?_concat ..
      · exact List.getLast?_concat ..
      · exact absurd ⟨last, hlast, hdate, not_not.mp hsig⟩ h
  exact List.mem_of_getLast? (getLast?_recent hlast)

namespace RankCall

/-- The file that a call saves, computed from the one it has loaded. -/
def save (c : RankCall D) (file : Option (RankStore D)) : Option (Option (RankStore D)) :=
  if c.saved then (c.modify (loadStore file)).1.map some else none

/-- **A new snapshot**: the call puts it in, and it was not there. -/
structure New (c : RankCall D) (file : Option (RankStore D)) (snap : RankSnapshot D) : Prop where
  taken : c.snap = some snap
  put : ¬ Skipped (storedHistory file c.puuid) snap
  fresh : snap ∉ storedHistory file c.puuid

variable {c : RankCall D} {file : Option (RankStore D)}

/-- **A call on its own** is `record_rank`. -/
theorem apply_save (c : RankCall D) (file : Option (RankStore D)) :
    apply c.save file = (c.recordRank file).1 := by
  unfold apply save
  rcases hsnap : c.snap with _ | snap
  · rw [recordRank_of_none hsnap, modify_eq, hsnap]
    split_ifs <;> rfl
  · rw [recordRank_of_some hsnap, modify_eq, hsnap, saveStore]
    split_ifs <;> rfl

theorem apply_save_of_some {file' : Option (RankStore D)} (h : c.save file = some file') :
    apply c.save file = file' := by
  unfold apply
  rw [h, Option.getD_some]

/-- The histories of other players are what they were in the file that was
loaded. -/
theorem storedHistory_apply_of_ne {puuid : GoString} (h : c.puuid ≠ puuid)
    (file : Option (RankStore D)) :
    storedHistory (apply c.save file) puuid = storedHistory file puuid := by
  rw [apply_save]
  rcases c.storedHistory_recordRank_cases file puuid with heq | ⟨hp, -⟩
  · exact heq
  · exact absurd hp h

/-- **A new snapshot is in the store** after the call exactly if the call
saves. -/
theorem New.mem_apply_iff {snap : RankSnapshot D} (h : c.New file snap)
    {file' : Option (RankStore D)}
    (heq : storedHistory file' c.puuid = storedHistory file c.puuid) :
    snap ∈ storedHistory (apply c.save file') c.puuid ↔ c.saved = true := by
  rw [apply_save]
  constructor
  · intro hmem
    by_contra hsaved
    rw [recordRank_of_some h.taken, saveStore, if_neg hsaved, heq] at hmem
    exact h.fresh hmem
  · intro hsaved
    rw [storedHistory_recordRank h.taken hsaved, heq]
    exact mem_recent_revise h.put

theorem save_eq_none_iff (file : Option (RankStore D)) :
    c.save file = none ↔ c.snap = none ∨ c.saved = false := by
  unfold save
  rw [modify_eq]
  rcases c.saved with _ | _ <;> simp

end RankCall

/-! ## Two calls -/

/-- The file after two calls, step by step. -/
def fileAfter (call : Bool → RankCall D) (schedule : List Bool) (file : Option (RankStore D)) :
    Option (RankStore D) :=
  (run (fun i => (call i).save) schedule (.start file)).value

/-- **Both lookups are in the store**, as far as they have something new. -/
def BothStored (call : Bool → RankCall D) (schedule : List Bool)
    (file : Option (RankStore D)) : Prop :=
  ∀ i snap, (call i).New file snap →
    snap ∈ storedHistory (fileAfter call schedule file) (call i).puuid

variable {call : Bool → RankCall D} {file : Option (RankStore D)}

/-- **The first of two calls that do not overlap** is not disturbed by the
other, nor is the other by it. -/
theorem stored_of_sequential (hne : ∀ i, (call i).puuid ≠ (call !i).puuid) (i : Bool) :
    (∀ j snap, (call j).New file snap →
      snap ∈ storedHistory (apply (call i).save (apply (call !i).save file)) (call j).puuid) ↔
    ∀ j snap, (call j).New file snap → (call j).saved = true := by
  have hother : ∀ snap, (call !i).New file snap →
      (snap ∈ storedHistory (apply (call i).save (apply (call !i).save file)) (call !i).puuid ↔
        (call !i).saved = true) := fun snap hnew => by
    rw [RankCall.storedHistory_apply_of_ne (hne i)]
    exact hnew.mem_apply_iff rfl
  have hself : ∀ snap, (call i).New file snap →
      (snap ∈ storedHistory (apply (call i).save (apply (call !i).save file)) (call i).puuid ↔
        (call i).saved = true) := fun snap hnew =>
    hnew.mem_apply_iff (RankCall.storedHistory_apply_of_ne (hne i).symm file)
  refine forall_congr' fun j => forall_congr' fun snap => forall_congr' fun hnew => ?_
  by_cases hj : j = i
  · subst hj
    exact hself snap hnew
  · obtain rfl := Bool.eq_not.mpr hj
    exact hother snap hnew

/-- **Of two calls that overlap** the first one is lost, unless it has
nothing new or the last one saves nothing. -/
theorem stored_of_overlap (hne : ∀ i, (call i).puuid ≠ (call !i).puuid) (i : Bool) :
    (∀ j snap, (call j).New file snap →
      snap ∈ storedHistory (((call i).save file).getD (apply (call !i).save file))
        (call j).puuid) ↔
    (∀ j snap, (call j).New file snap → (call j).saved = true) ∧
      (((call i).snap = none ∨ (call i).saved = false) ∨ ∀ snap, ¬ (call !i).New file snap) := by
  rcases hsave : (call i).save file with _ | file'
  · -- the last call saves nothing, and is as good as not there
    have hnone := (RankCall.save_eq_none_iff file).mp hsave
    have happly : apply (call i).save (apply (call !i).save file)
        = apply (call !i).save file := by
      rw [apply, (RankCall.save_eq_none_iff _).mpr hnone, Option.getD_none]
    rw [Option.getD_none, ← happly, stored_of_sequential hne i, and_iff_left (Or.inl hnone)]
  · have happly := RankCall.apply_save_of_some hsave
    have hwrites : ¬ ((call i).snap = none ∨ (call i).saved = false) := by
      rw [← RankCall.save_eq_none_iff file, hsave]
      exact Option.some_ne_none file'
    have hsaved : (call i).saved = true := Bool.eq_true_of_not_eq_false fun h => hwrites (Or.inr h)
    rw [Option.getD_some, ← happly]
    refine ⟨fun h => ?_, fun h j snap hnew => ?_⟩
    · -- the other player has the history of the start
      have hlost : ∀ snap, ¬ (call !i).New file snap := by
        intro snap hnew
        have hmem := h (!i) snap hnew
        rw [RankCall.storedHistory_apply_of_ne (hne i)] at hmem
        exact hnew.fresh hmem
      refine ⟨fun j snap hnew => ?_, Or.inr hlost⟩
      by_cases hj : j = i
      · rw [hj, hsaved]
      · obtain rfl := Bool.eq_not.mpr hj
        exact absurd hnew (hlost snap)
    · by_cases hj : j = i
      · subst hj
        exact (hnew.mem_apply_iff rfl).mpr hsaved
      · obtain rfl := Bool.eq_not.mpr hj
        exact absurd hnew (h.2.resolve_left hwrites snap)

/-- **When no snapshot is lost.** Two calls for different players, their
steps in any order: both finish, and what is new of each is in the store at
the end exactly if no save of something new fails, and one call is over
before the other begins, or the one that saves last saves nothing, or the
other has nothing new. -/
theorem both_stored_iff (call : Bool → RankCall D) (hne : (call true).puuid ≠ (call false).puuid)
    (file : Option (RankStore D)) (schedule : List Bool) (h : Interleaves schedule) :
    (∀ i, (run (fun i => (call i).save) schedule (.start file)).phase i = .done) ∧
      (BothStored call schedule file ↔
        (∀ i snap, (call i).New file snap → (call i).saved = true) ∧
          (Sequential schedule ∨ ∀ i, schedule.getLast? = some i →
            ((call i).snap = none ∨ (call i).saved = false) ∨
              ∀ snap, ¬ (call !i).New file snap)) := by
  have hne' : ∀ i, (call i).puuid ≠ (call !i).puuid := by
    rintro (_ | _)
    · exact hne.symm
    · exact hne
  refine ⟨fun i => run_done _ (h i) file, ?_⟩
  obtain ⟨i, hlast, hseq, hoverlap⟩ := run_two (fun i => (call i).save) h file
  unfold BothStored fileAfter
  by_cases hs : Sequential schedule
  · rw [hseq hs, stored_of_sequential hne' i, and_iff_left (Or.inl hs)]
  · rw [hoverlap hs, stored_of_overlap hne' i, or_iff_right hs, hlast]
    refine and_congr_right fun _ => ⟨fun hlost j hj => ?_, fun hlost => hlost i rfl⟩
    obtain rfl := Option.some.inj hj
    exact hlost

/-- Lookups of two players. -/
def sampleCall (i : Bool) : RankCall ℕ :=
  ⟨if i then ascii "p" else ascii "q", 1, some (sampleRank "GOLD" 10), true⟩

/-- One after the other, both are kept. -/
theorem both_stored_in_turn :
    BothStored sampleCall [true, true, true, false, false, false] none :=
  (both_stored_iff sampleCall (by decide) none _ (Bool.forall_bool.mpr ⟨rfl, rfl⟩)).2.mpr
    ⟨fun _ _ _ => rfl, Or.inl ⟨false, rfl⟩⟩

/-- Both load before either saves. -/
theorem first_snapshot_lost :
    (sampleCall true).puuid ≠ (sampleCall false).puuid ∧
      Interleaves [true, false, true, false, true, false] ∧
      ¬ BothStored sampleCall [true, false, true, false, true, false] none := by
  refine ⟨by decide, Bool.forall_bool.mpr ⟨rfl, rfl⟩, fun h => ?_⟩
  have hmem := h true _ ⟨rfl, ?_, List.not_mem_nil⟩
  · exact absurd hmem List.not_mem_nil
  · rintro ⟨last, hlast, -⟩
    cases hlast

end Api

end TftAnalytics

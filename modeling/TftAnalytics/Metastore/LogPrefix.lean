import TftAnalytics.Metastore.Helpers.Wal
/-!
# Metastore — replaying any prefix of the log

A log since its last rotation, and the records the calls have put there
(`Logs`). Whatever prefix of its bytes is left, `Replay` finds the records
that lie wholly inside (`walReplay_take`), so its answer is read off those
(`Logs.replay_prefix`).
-/

namespace TftAnalytics

namespace Metastore

variable {w : WAL} {rs : List WALEntry}

/-- The bytes of a record. -/
def recordBytes (r : WALEntry) : Bytes := walRecord r.sequenceNum r.status r.key r.value

/-- **The log since its last rotation** and the records in it: of `Append`
under the next sequence number, with a key and a value below 4 GiB, and of
`Commit` under any. The file may be opened and replayed in between. -/
inductive Logs : List WALEntry → WAL → Prop
  | rotate (w : WAL) : Logs [] w.rotate
  | append {rs : List WALEntry} {w : WAL} {key : GoString} {value : Bytes} :
      key.length < 2 ^ 32 → value.length < 2 ^ 32 → Logs rs w →
      Logs (rs ++ [⟨w.seq + 1, key, value, walPending⟩]) (w.append key value).1
  | commit {rs : List WALEntry} {w : WAL} (seq : UInt64) :
      Logs rs w → Logs (rs ++ [⟨seq, [], [], walCommitted⟩]) (w.commit seq)
  | replay {rs : List WALEntry} {w : WAL} : Logs rs w → Logs rs w.replay.2

/-- A record of the log has the fields its bytes can hold. -/
def Fits (r : WALEntry) : Prop :=
  r.key.length < 2 ^ 32 ∧ r.value.length < 2 ^ 32 ∧
    (r.status = walPending ∨ r.status = walCommitted)

/-- **The file is the records, one after another.** -/
theorem Logs.spec (h : Logs rs w) : w.f = rs.flatMap recordBytes ∧ ∀ r ∈ rs, Fits r := by
  induction h with
  | rotate w => exact ⟨rfl, by simp⟩
  | append hkey hvalue _ ih =>
    refine ⟨?_, fun r hr => ?_⟩
    · rw [List.flatMap_append, ← ih.1, List.flatMap_singleton]
      rfl
    · rcases List.mem_append.mp hr with hr | hr
      · exact ih.2 r hr
      · exact List.mem_singleton.mp hr ▸ ⟨hkey, hvalue, Or.inl rfl⟩
  | commit seq _ ih =>
    refine ⟨?_, fun r hr => ?_⟩
    · rw [List.flatMap_append, ← ih.1, List.flatMap_singleton]
      rfl
    · rcases List.mem_append.mp hr with hr | hr
      · exact ih.2 r hr
      · exact List.mem_singleton.mp hr ▸ ⟨by simp, by simp, Or.inr rfl⟩
  | replay _ ih => exact ih

/-! ## What the loop gathers -/

/-- The loop of `Replay` splits what it reads into data and markers. -/
theorem foldl_step_spec (rs : List WALEntry) (s : Replay) :
    (rs.foldl Replay.step s).records
        = s.records ++ (rs.filter fun r => r.status ≠ walCommitted).map
            (fun r => { r with status := walPending }) ∧
      ∀ seq, seq ∈ (rs.foldl Replay.step s).committed ↔
        seq ∈ s.committed ∨ ∃ r ∈ rs, r.status = walCommitted ∧ r.sequenceNum = seq := by
  induction rs generalizing s with
  | nil => simp
  | cons r rs ih =>
    obtain ⟨hrecords, hcommitted⟩ := ih (s.step r)
    rw [List.foldl_cons]
    -- a marker is noted, any other record is kept
    by_cases hr : r.status = walCommitted
    · have hkept : (s.step r).records = s.records := by
        simp only [Replay.step, hr, if_true]
        split_ifs <;> rfl
      have hnoted : (s.step r).committed = r.sequenceNum :: s.committed := by
        simp only [Replay.step, hr, if_true]
        split_ifs <;> rfl
      refine ⟨by rw [hrecords, hkept, List.filter_cons_of_neg (by simpa using hr)], fun seq => ?_⟩
      rw [hcommitted, hnoted, List.mem_cons]
      simp only [List.exists_mem_cons_iff, hr, true_and]
      rw [eq_comm (a := seq)]
      tauto
    · have hkept : (s.step r).records = s.records ++ [{ r with status := walPending }] := by
        simp only [Replay.step, hr, if_false]
        split_ifs <;> rfl
      have hnoted : (s.step r).committed = s.committed := by
        simp only [Replay.step, hr, if_false]
        split_ifs <;> rfl
      refine ⟨?_, fun seq => ?_⟩
      · rw [hrecords, hkept, List.filter_cons_of_pos (by simpa using hr), List.append_assoc]
        rfl
      · rw [hcommitted, hnoted]
        simp only [List.exists_mem_cons_iff, hr, false_and, false_or]

/-- The largest sequence number is that of a record, or none was read. -/
theorem foldl_step_maxSeq (rs : List WALEntry) (s : Replay) :
    (s.maxSeq ≤ (rs.foldl Replay.step s).maxSeq) ∧
      (∀ r ∈ rs, r.sequenceNum ≤ (rs.foldl Replay.step s).maxSeq) ∧
      ((rs.foldl Replay.step s).maxSeq = s.maxSeq ∨
        ∃ r ∈ rs, r.sequenceNum = (rs.foldl Replay.step s).maxSeq) := by
  induction rs generalizing s with
  | nil => exact ⟨UInt64.le_refl _, by simp, Or.inl rfl⟩
  | cons r rs ih =>
    obtain ⟨hle, hall, hsome⟩ := ih (s.step r)
    have hstep : (s.step r).maxSeq
        = if r.sequenceNum > s.maxSeq then r.sequenceNum else s.maxSeq := by
      simp only [Replay.step]
      split_ifs <;> rfl
    rw [List.foldl_cons]
    -- either the first record raises the number, or the start was above it
    by_cases hr : r.sequenceNum > s.maxSeq
    · rw [hstep, if_pos hr] at hle hsome
      refine ⟨UInt64.le_trans (UInt64.le_of_lt hr) hle, ?_, Or.inr ?_⟩
      · rintro x hx
        rcases List.mem_cons.mp hx with rfl | hx
        · exact hle
        · exact hall x hx
      · rcases hsome with heq | ⟨x, hx, heq⟩
        · exact ⟨r, by simp, heq.symm⟩
        · exact ⟨x, List.mem_cons_of_mem _ hx, heq⟩
    · rw [hstep, if_neg hr] at hle hsome
      refine ⟨hle, ?_, ?_⟩
      · rintro x hx
        rcases List.mem_cons.mp hx with rfl | hx
        · exact UInt64.le_trans (UInt64.not_lt.mp hr) hle
        · exact hall x hx
      · refine hsome.imp_right ?_
        rintro ⟨x, hx, heq⟩
        exact ⟨x, List.mem_cons_of_mem _ hx, heq⟩

/-- **The scan of a prefix** finds the records wholly inside. -/
theorem scan_take_records (hrs : ∀ r ∈ rs, Fits r) (n : ℕ) :
    (walRecords.scan ((rs.flatMap recordBytes).take n)).1
      = Framing.wholeIn recordBytes n rs :=
  stable_walRecords.scan_take dec_nil fun r hr => chunk_walRecord (hrs r hr).1 (hrs r hr).2.1

/-- **Replay of any prefix of the log.** The data records wholly inside, in
order, under their keys, values and sequence numbers, each committed just
when a marker for its sequence number is wholly inside; and the sequence
number to go on from is the largest of a record wholly inside. -/
theorem Logs.replay_prefix (h : Logs rs w) (n : ℕ) (seq : UInt64) :
    let whole := Framing.wholeIn recordBytes n rs
    let replayed := (WAL.mk (w.f.take n) seq).replay
    (replayed.1 = (whole.filter fun r => r.status = walPending).map fun r =>
      { r with status := if ∃ m ∈ whole, m.status = walCommitted ∧ m.sequenceNum = r.sequenceNum
                then walCommitted else walPending }) ∧
    (∀ r ∈ whole, r.sequenceNum ≤ replayed.2.seq) ∧
    (whole = [] → replayed.2.seq = 0) ∧
    (whole ≠ [] → ∃ r ∈ whole, r.sequenceNum = replayed.2.seq) := by
  obtain ⟨hfile, hfits⟩ := h.spec
  set whole := Framing.wholeIn recordBytes n rs with hwhole
  have hscan : (walRecords.scan (w.f.take n)).1 = whole := by
    rw [hfile, scan_take_records hfits]
  have hpending : ∀ r ∈ whole, r.status ≠ walCommitted ↔ r.status = walPending := by
    intro r hr
    rcases (hfits r (Framing.mem_of_mem_wholeIn hr)).2.2 with hs | hs <;>
      simp [hs, walPending, walCommitted]
  obtain ⟨hrecords, hcommitted⟩ := foldl_step_spec whole ⟨[], [], 0⟩
  obtain ⟨-, hall, hsome⟩ := foldl_step_maxSeq whole ⟨[], [], 0⟩
  refine ⟨?_, fun r hr => ?_, fun hnone => ?_, fun hne => ?_⟩
  · simp only [WAL.replay, walReplay, hscan, hrecords, List.nil_append, List.map_map]
    rw [List.filter_congr fun r hr => decide_eq_decide.mpr (hpending r hr)]
    refine List.map_congr_left fun r _ => ?_
    simp only [Function.comp_apply, hcommitted, List.not_mem_nil, false_or]
    split_ifs <;> rfl
  · simpa only [WAL.replay, walReplay, hscan] using hall r hr
  · simp only [WAL.replay, walReplay, hscan, hnone]
    rfl
  · simp only [WAL.replay, walReplay, hscan]
    rcases hsome with hzero | hfound
    · -- the largest is zero, so every record's number is
      obtain ⟨r, hr⟩ := List.exists_mem_of_ne_nil _ hne
      have hle := hall r hr
      rw [hzero] at hle ⊢
      exact ⟨r, hr, UInt64.le_antisymm hle UInt64.zero_le⟩
    · exact hfound

/-- A log cut one byte short of its commit marker's end replays the record
as pending. -/
theorem replay_prefix_torn_marker :
    Logs [⟨1, [107], [118], walPending⟩, ⟨1, [], [], walCommitted⟩]
        (((WAL.rotate ⟨[], 0⟩).append [107] [118]).1.commit 1) ∧
      (WAL.mk ((((WAL.rotate ⟨[], 0⟩).append [107] [118]).1.commit 1).f.take 35) 0).replay.1
        = [⟨1, [107], [118], walPending⟩] := by
  have h : Logs [⟨1, [107], [118], walPending⟩, ⟨1, [], [], walCommitted⟩]
      (((WAL.rotate ⟨[], 0⟩).append [107] [118]).1.commit 1) :=
    ((Logs.rotate ⟨[], 0⟩).append (by decide) (by decide)).commit 1
  exact ⟨h, (h.replay_prefix 35 0).1⟩

end Metastore

end TftAnalytics

import TftAnalytics.Metastore.Model.Wal
/-!
# Metastore — what a log replays to

Helper layer. `logged` is the data a log holds, in order. Appending a
record to a log of complete records adds what the record holds; a record
cut short adds nothing, and leaves the log with a torn tail.
-/

namespace TftAnalytics

namespace Metastore

/-- The keys and values of the data records of a log. -/
def logged (log : Bytes) : List (GoString × Bytes) :=
  ((walRecords.scan log).1.filter fun r => r.status ≠ walCommitted).map fun r => (r.key, r.value)

/-- **The log ends with a complete record.** -/
def Whole (log : Bytes) : Prop := (walRecords.scan log).2 = []

instance (log : Bytes) : Decidable (Whole log) := inferInstanceAs (Decidable (_ = _))

/-! ## Records -/

/-- Reading a record looks at no byte behind it. -/
theorem stable_walRecords : walRecords.Stable := by
  intro b rest r h c
  obtain ⟨header, lenBuf, rfl, hheader, hlenBuf, hkey, hvalue, hseq, hstatus⟩ :=
    readRecord_eq_some h
  change readRecord _ = _
  simp only [readRecord, List.append_assoc, readFull_append hheader, readFull_append hkey,
    readFull_append hlenBuf, readFull_append hvalue, Option.bind_eq_bind, Option.bind_some,
    Option.pure_def, ← hseq, ← hstatus]

/-- **A written record reads back**, whatever follows it. -/
theorem chunk_walRecord {seq : UInt64} {status : UInt8} {key : GoString} {value : Bytes}
    (hkey : key.length < 2 ^ 32) (hvalue : value.length < 2 ^ 32) :
    walRecords.Chunk (walRecord seq status key value) ⟨seq, key, value, status⟩ := by
  intro rest
  have hseq : beNat (beBytes 8 seq.toNat) = seq.toNat :=
    beNat_beBytes_of_lt (by simpa using seq.toNat_lt)
  have hkeyLen : beNat (beBytes 4 key.length) = key.length :=
    beNat_beBytes_of_lt (by simpa using hkey)
  have hvalueLen : beNat (beBytes 4 value.length) = value.length :=
    beNat_beBytes_of_lt (by simpa using hvalue)
  have hsplit : walRecord seq status key value ++ rest
      = (beBytes 8 seq.toNat ++ [status] ++ beBytes 4 key.length)
        ++ (key ++ (beBytes 4 value.length ++ (value ++ rest))) := by
    simp [walRecord]
  have hdrop8 : (beBytes 8 seq.toNat ++ [status] ++ beBytes 4 key.length).drop 8
      = status :: beBytes 4 key.length := by
    rw [List.append_assoc, List.drop_left' (by simp)]
    rfl
  have hdrop9 : (beBytes 8 seq.toNat ++ [status] ++ beBytes 4 key.length).drop 9
      = beBytes 4 key.length := List.drop_left' (by simp)
  have htake8 : (beBytes 8 seq.toNat ++ [status] ++ beBytes 4 key.length).take 8
      = beBytes 8 seq.toNat := by
    rw [List.append_assoc, List.take_left' (by simp)]
  have htake4 : (beBytes 4 key.length).take 4 = beBytes 4 key.length :=
    List.take_of_length_le (by simp)
  change readRecord _ = _
  rw [hsplit, readRecord, readFull_append (by simp)]
  simp only [Option.bind_eq_bind, Option.bind_some, hdrop8, hdrop9, htake8, htake4, hkeyLen, hseq,
    readFull_append, length_beBytes, hvalueLen, Option.pure_def, List.headD_cons,
    UInt64.ofNat_toNat]

theorem chunk_commitRecord (seq : UInt64) :
    walRecords.Chunk (commitRecord seq) ⟨seq, [], [], walCommitted⟩ :=
  chunk_walRecord (by simp) (by simp)

theorem dec_nil : walRecords.dec [] = none := rfl

/-! ## Logs -/

@[simp] theorem whole_nil : Whole [] := by decide

@[simp] theorem logged_nil : logged [] = [] := by decide

theorem logged_append {log : Bytes} (h : Whole log) (c : Bytes) :
    logged (log ++ c) = logged log ++ logged c := by
  simp only [logged, stable_walRecords.scan_append_of_whole h, List.filter_append,
    List.map_append]

theorem whole_append {log c : Bytes} (h : Whole log) : Whole (log ++ c) ↔ Whole c := by
  rw [Whole, stable_walRecords.scan_append_of_whole h, Whole]

theorem scan_appendRecord {seq : UInt64} {key : GoString} {value : Bytes}
    (hkey : key.length < 2 ^ 32) (hvalue : value.length < 2 ^ 32) :
    walRecords.scan (appendRecord seq key value) = ([⟨seq, key, value, walPending⟩], []) :=
  Framing.scan_chunk (chunk_walRecord hkey hvalue) dec_nil

theorem scan_commitRecord (seq : UInt64) :
    walRecords.scan (commitRecord seq) = ([⟨seq, [], [], walCommitted⟩], []) :=
  Framing.scan_chunk (chunk_commitRecord seq) dec_nil

/-- **Appending a data record** adds its key and value. -/
theorem logged_appendRecord {log : Bytes} (h : Whole log) {seq : UInt64} {key : GoString}
    {value : Bytes} (hkey : key.length < 2 ^ 32) (hvalue : value.length < 2 ^ 32) :
    logged (log ++ appendRecord seq key value) = logged log ++ [(key, value)] ∧
      Whole (log ++ appendRecord seq key value) := by
  have hdata : logged (appendRecord seq key value) = [(key, value)] := by
    simp [logged, scan_appendRecord hkey hvalue, walPending, walCommitted]
  have hwhole : Whole (appendRecord seq key value) := by
    rw [Whole, scan_appendRecord hkey hvalue]
  exact ⟨by rw [logged_append h, hdata], (whole_append h).mpr hwhole⟩

/-- A commit marker adds no data. -/
theorem logged_commitRecord {log : Bytes} (h : Whole log) (seq : UInt64) :
    logged (log ++ commitRecord seq) = logged log ∧ Whole (log ++ commitRecord seq) := by
  have hdata : logged (commitRecord seq) = [] := by simp [logged, scan_commitRecord]
  have hwhole : Whole (commitRecord seq) := by rw [Whole, scan_commitRecord]
  exact ⟨by rw [logged_append h, hdata, List.append_nil], (whole_append h).mpr hwhole⟩

/-- **A record cut short** adds nothing. -/
theorem logged_torn {log c : Bytes} {r : WALEntry} (h : Whole log) (hc : walRecords.Chunk c r)
    {n : ℕ} (hn : n < c.length) : logged (log ++ c.take n) = logged log := by
  have hdata : logged (c.take n) = [] := by
    simp [logged, walRecords.scan_of_none (stable_walRecords.dec_take hc hn)]
  rw [logged_append h, hdata, List.append_nil]

/-- A log cut inside the commit marker at its end holds the same data. -/
theorem logged_take_commit {log : Bytes} (h : Whole log) (seq : UInt64) (n : ℕ) :
    logged (log ++ (commitRecord seq).take n) = logged log := by
  rcases Nat.lt_or_ge n (commitRecord seq).length with hn | hn
  · exact logged_torn h (chunk_commitRecord seq) hn
  · rw [List.take_of_length_le hn, (logged_commitRecord h seq).1]

/-- **`Replay` returns the data a log holds**, in order. -/
theorem walReplay_records (log : Bytes) :
    (walReplay log).1.map (fun r => (r.key, r.value)) = logged log := by
  have hfold : ∀ (rs : List WALEntry) (s : Replay),
      (rs.foldl Replay.step s).records.map (fun r => (r.key, r.value))
        = s.records.map (fun r => (r.key, r.value))
          ++ (rs.filter fun r => r.status ≠ walCommitted).map fun r => (r.key, r.value) := by
    intro rs
    induction rs with
    | nil => simp
    | cons r rs ih =>
      intro s
      rw [List.foldl_cons, ih]
      by_cases hr : r.status = walCommitted <;>
        by_cases hs : r.sequenceNum > s.maxSeq <;> simp [Replay.step, hr, hs]
  have hmark : ∀ (rs : List WALEntry) (seqs : List UInt64),
      (rs.map fun r => if r.sequenceNum ∈ seqs then { r with status := walCommitted } else r).map
        (fun r => (r.key, r.value)) = rs.map fun r => (r.key, r.value) := by
    intro rs seqs
    rw [List.map_map]
    refine List.map_congr_left fun r _ => ?_
    simp only [Function.comp_apply]
    split_ifs <;> rfl
  rw [walReplay, hmark, hfold]
  rfl

end Metastore

end TftAnalytics

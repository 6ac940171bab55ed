import TftAnalytics.Common.Framing
import TftAnalytics.Metastore.Model.Entry
/-!
# Metastore — the write-ahead log

`wal.go`: the record layout, and `Replay`, which reads records until the
first incomplete one and returns the data records with the sequence
numbers and commit states it found. The log file itself is part of the
directory the tree lives in and appears with the tree.
-/

namespace TftAnalytics

namespace Metastore

/-- The status of a data record. -/
def walPending : UInt8 := 0

/-- The status of a commit marker. -/
def walCommitted : UInt8 := 1

/-- A record of the log. -/
structure WALEntry where
  sequenceNum : UInt64
  key : GoString
  value : Bytes
  status : UInt8

/-- The bytes `writeRecord` writes:
`[seq u64][status u8][keyLen u32][key][valLen u32][value]`. -/
def walRecord (seq : UInt64) (status : UInt8) (key : GoString) (value : Bytes) : Bytes :=
  beBytes 8 seq.toNat ++ [status] ++ beBytes 4 key.length ++ key ++ beBytes 4 value.length ++ value

/-- The data record `Append` writes. -/
def appendRecord (seq : UInt64) (key : GoString) (value : Bytes) : Bytes :=
  walRecord seq walPending key value

/-- The marker `Commit` writes. -/
def commitRecord (seq : UInt64) : Bytes := walRecord seq walCommitted [] []

/-- One turn of the loop of `Replay`: a record off the front of the log. -/
def readRecord (b : Bytes) : Option (WALEntry × Bytes) := do
  let (header, b) ← readFull 13 b
  let (key, b) ← readFull (beNat ((header.drop 9).take 4)) b
  let (lenBuf, b) ← readFull 4 b
  let (value, b) ← readFull (beNat lenBuf) b
  return (⟨UInt64.ofNat (beNat (header.take 8)), key, value, (header.drop 8).headD 0⟩, b)

/-- A record read is taken off the front. -/
theorem readRecord_eq_some {b rest : Bytes} {r : WALEntry} (h : readRecord b = some (r, rest)) :
    ∃ header lenBuf, b = header ++ (r.key ++ (lenBuf ++ (r.value ++ rest))) ∧
      header.length = 13 ∧ lenBuf.length = 4 ∧ r.key.length = beNat ((header.drop 9).take 4) ∧
      r.value.length = beNat lenBuf ∧ r.sequenceNum = UInt64.ofNat (beNat (header.take 8)) ∧
      r.status = (header.drop 8).headD 0 := by
  simp only [readRecord, Option.bind_eq_bind, Option.bind_eq_some_iff, Prod.exists,
    Option.pure_def, Option.some.injEq, Prod.mk.injEq] at h
  obtain ⟨header, b₁, h₁, key, b₂, h₂, lenBuf, b₃, h₃, value, b₄, h₄, rfl, rfl⟩ := h
  obtain ⟨rfl, hheader⟩ := readFull_eq_some h₁
  obtain ⟨rfl, hkey⟩ := readFull_eq_some h₂
  obtain ⟨rfl, hlen⟩ := readFull_eq_some h₃
  obtain ⟨rfl, hvalue⟩ := readFull_eq_some h₄
  exact ⟨header, lenBuf, rfl, hheader, hlen, hkey, hvalue, rfl, rfl⟩

/-- The records of the log, as `Replay` reads them. -/
def walRecords : Framing WALEntry where
  dec := readRecord
  shrinks := by
    intro b rest r h
    obtain ⟨header, lenBuf, rfl, hheader, -⟩ := readRecord_eq_some h
    simp only [List.length_append]
    omega

/-- What the loop of `Replay` has gathered. -/
structure Replay where
  committed : List UInt64
  records : List WALEntry
  maxSeq : UInt64

/-- The body of the loop on a record: a commit marker notes its sequence
number, any other record is kept, pending. -/
def Replay.step (s : Replay) (r : WALEntry) : Replay :=
  let s := if r.sequenceNum > s.maxSeq then { s with maxSeq := r.sequenceNum } else s
  if r.status = walCommitted then { s with committed := r.sequenceNum :: s.committed }
  else { s with records := s.records ++ [{ r with status := walPending }] }

/-- `Replay`: the data records of the log, those whose sequence number was
committed marked so, and the sequence number to continue from. -/
def walReplay (log : Bytes) : List WALEntry × UInt64 :=
  let s := (walRecords.scan log).1.foldl Replay.step ⟨[], [], 0⟩
  (s.records.map fun r =>
    if r.sequenceNum ∈ s.committed then { r with status := walCommitted } else r, s.maxSeq)

/-- `WAL`: the file and the sequence number it is at. -/
structure WAL where
  f : Bytes
  seq : UInt64

namespace WAL

/-- `Append`: the next sequence number, and the record written under it. -/
def append (w : WAL) (key : GoString) (value : Bytes) : WAL × UInt64 :=
  let seq := w.seq + 1
  ({ f := w.f ++ appendRecord seq key value, seq := seq }, seq)

/-- `Commit`: a marker for a sequence number. -/
def commit (w : WAL) (seq : UInt64) : WAL := { w with f := w.f ++ commitRecord seq }

/-- `Replay`: the records of the file; the sequence number moves to the
largest one read. -/
def replay (w : WAL) : List WALEntry × WAL :=
  ((walReplay w.f).1, { w with seq := (walReplay w.f).2 })

/-- `Rotate`: the file truncated, and the sequence numbers restarted. -/
def rotate (_w : WAL) : WAL := { f := [], seq := 0 }

end WAL

end Metastore

end TftAnalytics

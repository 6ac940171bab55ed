import TftAnalytics.Common.Framing
import Mathlib.Data.Int.ModEq
/-!
# Broker — a partition log

One append-only log file and its in-memory index, as `partition.go`
keeps them. A record is `[8 bytes: offset][4 bytes: length N][N bytes:
payload]`. The model follows the calls that succeed: `Append`, `ReadAt`,
`trimLocked` and `openPartition` with its `recover` loop, over the bytes
of the file. Offsets are Go `int64`s; positions in the file are natural
numbers.
-/

namespace TftAnalytics

namespace Broker

/-- Bytes of a record before its payload. -/
def headerSize : ℕ := 12

/-- The conversion `uint64(i)`. -/
def uint64 (i : ℤ) : ℕ := (i % 2 ^ 64).toNat

/-- The conversion `int64(n)` of an unsigned 64-bit value. -/
def int64 (n : ℕ) : ℤ := (n : ℤ).bmod (2 ^ 64)

/-- The bytes `Append` writes for a payload at an offset. -/
def recordBytes (off : ℤ) (payload : Bytes) : Bytes :=
  beBytes 8 (uint64 off) ++ beBytes 4 payload.length ++ payload

/-- What `recover` reads of a record. -/
structure RecordHeader where
  recordOffset : ℤ
  length : ℕ
  deriving DecidableEq, Repr

/-- One turn of `recover`'s loop over the file: a whole header, and a
seek past the payload it announces. The seek does not fail past the end
of the file, so a header is enough. -/
def readHeader (b : Bytes) : Option (RecordHeader × Bytes) :=
  match readFull headerSize b with
  | none => none
  | some (header, rest) =>
    let length := beNat (header.drop 8)
    some (⟨int64 (beNat (header.take 8)), length⟩, rest.drop length)

theorem readHeader_shrinks {b rest : Bytes} {h : RecordHeader}
    (hd : readHeader b = some (h, rest)) : rest.length < b.length := by
  unfold readHeader at hd
  split at hd
  · cases hd
  · rename_i header tail hread
    obtain ⟨hb, hlen⟩ := readFull_eq_some hread
    simp only [Option.some.injEq, Prod.mk.injEq] at hd
    obtain ⟨-, rfl⟩ := hd
    rw [hb, List.length_append, List.length_drop, hlen, headerSize]
    omega

/-- The log as `recover` reads it. -/
def headers : Framing RecordHeader := ⟨readHeader, readHeader_shrinks⟩

/-- A partition: its file, the byte position of each retained record, the
next offset to assign and the lowest one retained, and the retention cap,
which is off at `0` and below. -/
structure Partition where
  logFile : Bytes
  index : List ℕ
  offset : ℤ
  baseOffset : ℤ
  maxRecords : ℤ
  deriving DecidableEq, Repr

/-- The variables of `recover`'s loop. -/
structure Recovery where
  pos : ℕ := 0
  first : Bool := true
  baseOffset : ℤ := 0
  offset : ℤ := 0
  index : List ℕ := []

/-- The body of `recover`'s loop, once the header is read. -/
def Recovery.step (st : Recovery) (h : RecordHeader) : Recovery where
  pos := st.pos + headerSize + h.length
  first := false
  baseOffset := if st.first then h.recordOffset else st.baseOffset
  offset := (if st.first then h.recordOffset else st.offset) + 1
  index := st.index ++ [st.pos]

/-- `openPartition` on a log file: the index and both offsets are rebuilt
from the headers. -/
def openPartition (file : Bytes) (maxRecords : ℤ) : Partition :=
  let st := (headers.scan file).1.foldl Recovery.step {}
  ⟨file, st.index, st.offset, st.baseOffset, maxRecords⟩

namespace Partition

/-- `trimLocked`: the log file is rewritten from the first retained
record on and the index rebased to it. -/
def trimLocked (p : Partition) (drop : ℤ) : Partition :=
  if drop ≤ 0 ∨ drop ≥ p.index.length then p
  else
    let startPos := p.index.getD drop.toNat 0
    { p with
      logFile := p.logFile.drop startPos
      index := (p.index.drop drop.toNat).map (· - startPos)
      baseOffset := p.baseOffset + drop }

/-- The retention step of `Append`: past the cap, the oldest records are
dropped down to 90% of it. -/
def retain (p : Partition) : Partition :=
  if p.maxRecords > 0 ∧ (p.index.length : ℤ) > p.maxRecords then
    let target := p.maxRecords - p.maxRecords / 10
    let drop := (p.index.length : ℤ) - target
    if drop > 0 then p.trimLocked drop else p
  else p

/-- `Append`: the record goes to the end of the file, and its offset is
returned. -/
def append (p : Partition) (payload : Bytes) : Partition × ℤ :=
  ({ p with
      logFile := p.logFile ++ recordBytes p.offset payload
      index := p.index ++ [p.logFile.length]
      offset := p.offset + 1 }.retain, p.offset)

/-- `os.File.ReadAt` of `n` bytes: a short read is an error, and an empty
one never is. -/
def fileReadAt (file : Bytes) (pos n : ℕ) : Option Bytes :=
  if n = 0 ∨ pos + n ≤ file.length then some ((file.drop pos).take n) else none

/-- `ReadAt`: the payload stored at an offset, `none` standing for
`io.EOF`, which is also what a short read of the file gives. -/
def readAt (p : Partition) (offset : ℤ) : Option Bytes :=
  if offset < p.baseOffset ∨ offset ≥ p.offset then none
  else
    match p.index[(offset - p.baseOffset).toNat]? with
    | none => none
    | some pos =>
      match fileReadAt p.logFile pos headerSize with
      | none => none
      | some header => fileReadAt p.logFile (pos + headerSize) (beNat (header.drop 8))

/-- `NextOffset`. -/
def nextOffset (p : Partition) : ℤ := p.offset

/-- `Close`, then `openPartition` on the same file, possibly under
another cap. -/
def reopen (p : Partition) (maxRecords : ℤ) : Partition := openPartition p.logFile maxRecords

/-- A crash while `payload` was being appended, and the `openPartition`
after it: the first `n` bytes of the record reached the file. -/
def crash (p : Partition) (payload : Bytes) (n : ℕ) (maxRecords : ℤ) : Partition :=
  openPartition (p.logFile ++ (recordBytes p.offset payload).take n) maxRecords

end Partition

end Broker

end TftAnalytics

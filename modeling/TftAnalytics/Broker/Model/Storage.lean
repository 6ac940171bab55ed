import TftAnalytics.Broker.Model.Partition
import TftAnalytics.Broker.Model.Naming
import Mathlib.Data.List.AList
import Mathlib.Logic.Function.Basic
/-!
# Broker — partitions in a data directory

The partition log of `partition.go` with the file handle it goes through:
a handle keeps its file when `trimLocked` gives the name to another one,
and a closed handle is of no use. Each step of a trim can fail. Files that
have had one name are listed oldest first, and the name stands for the
last of them.
-/

namespace TftAnalytics

namespace Broker

/-! ## Files -/

/-- The data directory: for each name the files it has stood for. -/
abbrev LogDir := GoString → List Bytes

namespace LogDir

/-- An empty directory. -/
def empty : LogDir := fun _ => []

/-- The bytes of a file. -/
def content (d : LogDir) (path : GoString) (f : ℕ) : Bytes := (d path).getD f []

/-- `os.OpenFile` with `O_CREATE`: the file that has the name, or a new
one. -/
def openFile (d : LogDir) (path : GoString) : LogDir × ℕ :=
  if d path = [] then (Function.update d path [[]], 0) else (d, (d path).length - 1)

/-- A write in append mode. -/
def write (d : LogDir) (path : GoString) (f : ℕ) (b : Bytes) : LogDir :=
  Function.update d path ((d path).set f (d.content path f ++ b))

/-- `os.Rename` of a new file with these bytes onto the name. -/
def rename (d : LogDir) (b : Bytes) (path : GoString) : LogDir :=
  Function.update d path (d path ++ [b])

end LogDir

/-- `Partition`, with its handle: a file that has had the name of the
partition, or none once it is closed. -/
structure LogPartition where
  key : GoString
  path : GoString
  logFile : Option ℕ
  index : List ℕ
  offset : ℤ
  baseOffset : ℤ
  maxRecords : ℤ
  deriving DecidableEq

/-- `openPartition`. -/
def LogDir.openPartition (d : LogDir) (key : GoString) (maxRecords : ℤ) : LogDir × LogPartition :=
  let path := logName key
  let opened := d.openFile path
  let p := Broker.openPartition (opened.1.content path opened.2) maxRecords
  (opened.1,
    { key := key, path := path, logFile := some opened.2, index := p.index, offset := p.offset,
      baseOffset := p.baseOffset, maxRecords := maxRecords })

/-! ## Trims that fail -/

/-- The step of `trimLocked` that fails: the seek to the end of the log,
the creation of the temporary file, the copy, the sync, the rename, the
opening of the new log or the seek to its end. -/
inductive TrimStop where
  | seekEnd
  | create
  | copy
  | sync
  | rename
  | reopen
  | seek
  deriving DecidableEq

/-- The step comes before the handle of the old log is closed. -/
def TrimStop.BeforeClose : TrimStop → Prop
  | .seekEnd | .create | .copy | .sync => True
  | .rename | .reopen | .seek => False

instance : DecidablePred TrimStop.BeforeClose
  | .seekEnd | .create | .copy | .sync => isTrue trivial
  | .rename | .reopen | .seek => isFalse id

namespace LogPartition

/-- What a partition is with these bytes in its file. -/
def view (p : LogPartition) (file : Bytes) : Partition :=
  ⟨file, p.index, p.offset, p.baseOffset, p.maxRecords⟩

/-- `trimLocked`, with the step that fails. -/
def trimLocked (p : LogPartition) (d : LogDir) (stop : Option TrimStop) (drop : ℤ) :
    LogDir × LogPartition :=
  if drop ≤ 0 ∨ drop ≥ p.index.length then (d, p)
  else
    match p.logFile with
    | none => (d, p)
    | some f =>
      let startPos := p.index.getD drop.toNat 0
      let retained := (d.content p.path f).drop startPos
      match stop with
      | some .seekEnd | some .create | some .copy | some .sync => (d, p)
      | some .rename => (d, { p with logFile := none })
      | some .reopen | some .seek => (d.rename retained p.path, { p with logFile := none })
      | none =>
        let opened := (d.rename retained p.path).openFile p.path
        (opened.1,
          { p with
            logFile := some opened.2
            index := (p.index.drop drop.toNat).map (· - startPos)
            baseOffset := p.baseOffset + drop })

/-- The retention step of `Append` trims. -/
def Trims (p : LogPartition) : Prop := p.maxRecords > 0 ∧ (p.index.length : ℤ) > p.maxRecords

instance (p : LogPartition) : Decidable p.Trims := inferInstanceAs (Decidable (_ ∧ _))

/-- The retention step of `Append`; the error of the trim is dropped. -/
def retain (p : LogPartition) (d : LogDir) (stop : Option TrimStop) : LogDir × LogPartition :=
  if p.Trims then
    let target := p.maxRecords - p.maxRecords / 10
    let drop := (p.index.length : ℤ) - target
    if drop > 0 then p.trimLocked d stop drop else (d, p)
  else (d, p)

/-- `Append` up to the retention step. -/
def record (p : LogPartition) (d : LogDir) (f : ℕ) (payload : Bytes) : LogDir × LogPartition :=
  (d.write p.path f (recordBytes p.offset payload),
    { p with
      index := p.index ++ [(d.content p.path f).length]
      offset := p.offset + 1 })

/-- `Append`: the offset, unless the handle is closed. -/
def append (p : LogPartition) (d : LogDir) (stop : Option TrimStop) (payload : Bytes) :
    (LogDir × LogPartition) × Option ℤ :=
  match p.logFile with
  | none => ((d, p), none)
  | some f =>
    let recorded := p.record d f payload
    (recorded.2.retain recorded.1 stop, some p.offset)

/-- `ReadAt`: nothing from a closed handle. -/
def readAt (p : LogPartition) (d : LogDir) (offset : ℤ) : Option Bytes :=
  match p.logFile with
  | none => none
  | some f => (p.view (d.content p.path f)).readAt offset

end LogPartition

/-! ## The partitions of a broker -/

/-- The partitions a broker has opened, in its data directory. -/
structure Storage where
  dir : LogDir
  partitions : AList fun _ : GoString => LogPartition
  maxRecords : ℤ

namespace Storage

/-- A broker without partitions, on a data directory. -/
def new (d : LogDir) (maxRecords : ℤ) : Storage := ⟨d, ∅, maxRecords⟩

/-- `getPartition`. -/
def getPartition (s : Storage) (key : GoString) : Storage × LogPartition :=
  match s.partitions.lookup key with
  | some p => (s, p)
  | none =>
    let opened := s.dir.openPartition key s.maxRecords
    ({ s with dir := opened.1, partitions := s.partitions.insert key opened.2 }, opened.2)

/-- `Publish`, with the step of a trim that fails. -/
def publish (s : Storage) (key : GoString) (stop : Option TrimStop) (payload : Bytes) :
    Storage × Option ℤ :=
  let got := s.getPartition key
  let appended := got.2.append got.1.dir stop payload
  ({ got.1 with
      dir := appended.1.1
      partitions := got.1.partitions.insert key appended.1.2 }, appended.2)

/-- What a subscriber of a partition gets at an offset. -/
def readAt (s : Storage) (key : GoString) (offset : ℤ) : Option Bytes :=
  let got := s.getPartition key
  got.2.readAt got.1.dir offset

/-- `backfill`, when nothing fails: the source's readable records are
published one by one, under the key as it comes back from `splitKey`. -/
def backfill (source : LogPartition) (d : LogDir) (target : Storage) : Storage :=
  (List.range source.offset.toNat).foldl
    (fun (target : Storage) (off : ℕ) =>
      match source.readAt d off with
      | none => target
      | some payload => (target.publish (rejoin source.key) none payload).1)
    target

end Storage

/-- What happens at a broker: a publish, whose trim may fail, a subscriber
that opens the partition, and a restart. -/
inductive StorageOp where
  | publish (stream : Stream) (stop : Option TrimStop) (payload : Bytes)
  | subscribe (stream : Stream)
  | restart (maxRecords : ℤ)

namespace Storage

/-- One of them. -/
def step (s : Storage) : StorageOp → Storage
  | .publish stream stop payload => (s.publish stream.key stop payload).1
  | .subscribe stream => (s.getPartition stream.key).1
  | .restart maxRecords => new s.dir maxRecords

/-- A run, from an empty data directory. -/
def run (maxRecords : ℤ) (ops : List StorageOp) : Storage :=
  ops.foldl step (new LogDir.empty maxRecords)

end Storage

end Broker

end TftAnalytics

import TftAnalytics.Metastore.Model.Wal
import TftAnalytics.Metastore.Model.Cache
import TftAnalytics.Metastore.Model.Table
/-!
# Metastore — the log-structured merge tree

`lsm.go`: the tree in memory, the directory it lives in, and the
operations on both. Reads and writes of files can fail or be cut off by a
crash, so the operations that write tables take an account of how each
call to the file system goes (`FlushOutcome`); `FlushOutcome.ok` is the
account in which all succeed. What a file holds once written and synced
stays.

A step under the tree's lock is one function here, and the part of `Read`
outside the lock, the look at the block cache, is another.
-/

namespace TftAnalytics

namespace Metastore

/-- What the store runs on: protobuf, and the clock whose readings stamp
the names of tables. No two readings are the same. -/
structure Env where
  codec : Codec
  nano : ℕ → ℕ
  nano_strictMono : StrictMono nano

/-- The directory of a tree: the bytes of `wal.log`, how many of them are
synced, the table files with their contents (`none` for an incomplete
file), and how often the clock was read. -/
structure Disk where
  wal : Bytes
  synced : ℕ
  files : List (SSTPath × Option TableData)
  clock : ℕ

namespace Disk

/-- An empty directory. -/
def empty : Disk := ⟨[], 0, [], 0⟩

/-- The file at `path` now has this content. -/
def create (d : Disk) (path : SSTPath) (content : Option TableData) : Disk :=
  { d with files := (path, content) :: d.files.filter (·.1 ≠ path) }

/-- `os.Remove` of the given files. -/
def unlink (d : Disk) (paths : List SSTPath) : Disk :=
  { d with files := d.files.filter (·.1 ∉ paths) }

/-- A write of `rec` to the log, which is opened in append mode. -/
def appendWal (d : Disk) (record : Bytes) : Disk := { d with wal := d.wal ++ record }

/-- `Sync` on the log. -/
def syncWal (d : Disk) : Disk := { d with synced := d.wal.length }

/-- The directory after the machine stopped: of the unsynced end of the log
some prefix is left. -/
def survive (d : Disk) (cut : ℕ) : Disk :=
  { d with
    wal := d.wal.take (max cut d.synced)
    synced := (d.wal.take (max cut d.synced)).length }

end Disk

/-- `level0CompactThreshold`. -/
def level0CompactThreshold : ℕ := 4

/-- `blockCacheEntries`. -/
def blockCacheEntries : ℤ := 4096

/-- `defaultMemTableMaxBytes`. -/
def defaultMemTableMaxBytes : ℤ := 64 * 1024 * 1024

/-- `LSMTree`; `walSeq` is the sequence number its log is at. -/
structure LSMTree where
  memtable : MemTable
  immutable : Option MemTable
  levels : List (List SSTable)
  walSeq : UInt64
  blockCache : LRUCache
  maxMemBytes : ℤ
  fileSeq : UInt64

/-- `l.levels[i]`. -/
def LSMTree.level (t : LSMTree) (i : ℕ) : List SSTable := t.levels.getD i []

/-- A tree and its directory. -/
structure Store where
  tree : LSMTree
  disk : Disk

/-! ## Opening -/

/-- `levels` made long enough to have a level `i`. -/
def padLevels (levels : List (List SSTable)) (i : ℕ) : List (List SSTable) :=
  levels ++ List.replicate (i + 1 - levels.length) []

/-- `openSSTable` on a file of the directory, and its place in the levels. -/
def loadTable (levels : List (List SSTable)) (file : SSTPath × Option TableData) :
    List (List SSTable) :=
  match file.2 with
  | none => levels
  | some data =>
    let levels := padLevels levels file.1.level
    levels.set file.1.level (levels.getD file.1.level [] ++ [⟨file.1, data⟩])

/-- `loadLevels`: the tables of the directory in the order of their names. -/
def loadLevels (d : Disk) : List (List SSTable) :=
  (d.files.insertionSort fun f g => f.1.le g.1).foldl loadTable [[]]

/-- `replayWAL`: the memtable the log stands for. -/
def replayWAL (c : Codec) (records : List WALEntry) : MemTable :=
  records.foldl (fun m r =>
    match c.unmarshal r.value with
    | none => m
    | some e => m.put c r.key e) .new

/-- `NewLSMTree`. -/
def newLSMTree (env : Env) (maxMemBytes : ℤ) (d : Disk) : Store :=
  let (records, seq) := walReplay d.wal
  { tree :=
      { memtable := replayWAL env.codec records
        immutable := none
        levels := loadLevels d
        walSeq := seq
        blockCache := .new blockCacheEntries
        maxMemBytes := if maxMemBytes ≤ 0 then defaultMemTableMaxBytes else maxMemBytes
        fileSeq := 0 }
    disk := d }

/-! ## Writing tables -/

/-- How a call to the file system goes: it succeeds, it returns an error,
or the machine stops in it. The last two leave something behind. -/
inductive Call (α : Type) where
  | ok
  | error (left : α)
  | crash (left : α)

/-- What is left of a table whose writing did not succeed: no file, an
incomplete one, or a complete one (when the last sync fails). -/
inductive TableLeft where
  | absent
  | incomplete
  | complete

/-- Which of the calls of `Rotate` does not succeed. -/
inductive RotateStop where
  | truncate
  | seek
  | sync

/-- How the calls of a flush and of the compaction after it go: writing the
table, rotating the log, scanning the sources, writing the merged table,
and removing the sources, of which some may stay and in the course of
which the machine may stop. When it stops anywhere, `walCut` says how much
of the unsynced log is left. -/
structure FlushOutcome where
  write : Call TableLeft
  rotate : Call RotateStop
  scan : Bool
  merge : Call TableLeft
  unlinked : SSTPath → Bool
  unlinkCrash : Bool
  walCut : ℕ

/-- All calls succeed. -/
def FlushOutcome.ok : FlushOutcome := ⟨.ok, .ok, true, .ok, fun _ => true, false, 0⟩

/-- How an operation ends: it returns, with an error or without, or the
machine stops and the directory is what is left. -/
inductive Exit where
  | returned (s : Store) (err : Bool)
  | crashed (d : Disk)

/-- The machine stopped. -/
def Exit.Crashes : Exit → Prop
  | .returned _ _ => False
  | .crashed _ => True

instance : DecidablePred Exit.Crashes
  | .returned _ _ => isFalse id
  | .crashed _ => isTrue trivial

/-- How `writeSSTable` ends. -/
inductive Written where
  | ok (t : SSTable) (d : Disk)
  | error (d : Disk)
  | crash (d : Disk)

/-- The directory with what is left of a table. -/
def Disk.leave (d : Disk) (path : SSTPath) (data : TableData) : TableLeft → Disk
  | .absent => d
  | .incomplete => d.create path none
  | .complete => d.create path (some data)

/-- `writeSSTable`. An entry that does not marshal stops it halfway. -/
def writeSSTable (c : Codec) (path : SSTPath) (entries : List StatEntry) (call : Call TableLeft)
    (d : Disk) : Written :=
  match tableRecords c entries, call with
  | some data, .ok => .ok ⟨path, data⟩ (d.create path (some data))
  | some data, .error left => .error (d.leave path data left)
  | some data, .crash left => .crash (d.leave path data left)
  | none, .crash _ => .crash (d.create path none)
  | none, _ => .error (d.create path none)

/-- The name `nextSSTablePath` makes up. -/
def Store.nextSSTablePath (env : Env) (s : Store) (level : ℕ) : SSTPath :=
  ⟨level, env.nano s.disk.clock, s.tree.fileSeq + 1⟩

/-- The store after `nextSSTablePath`. -/
def Store.tick (s : Store) : Store :=
  { tree := { s.tree with fileSeq := s.tree.fileSeq + 1 }
    disk := { s.disk with clock := s.disk.clock + 1 } }

/-! ## Compaction -/

/-- `merged[k] = pickNewer(merged[k], e)` for the key of `e`. -/
def mergeEntry (m : AList fun _ : GoString => StatEntry) (e : StatEntry) :
    AList fun _ : GoString => StatEntry :=
  match pickNewer (m.lookup (entryKey e)) (some e) with
  | none => m
  | some w => m.insert (entryKey e) w

/-- The merge of `compactLocked`: one entry a key, unless a source does not
scan. -/
def mergeTables (c : Codec) (sources : List SSTable) : Option (List StatEntry) :=
  (sources.mapM fun t : SSTable => t.scan c fun _ => true).map fun ess =>
    (ess.flatten.foldl mergeEntry ∅).entries.map (·.2)

/-- The store with the levels a compaction of `level` needs. -/
def Store.padded (s : Store) (level : ℕ) : Store :=
  { s with tree := { s.tree with levels := padLevels s.tree.levels (level + 1) } }

/-- The new table takes the place of two levels. -/
def LSMTree.swapLevels (t : LSMTree) (level : ℕ) (newSST : SSTable) : LSMTree :=
  { t with levels := (t.levels.set level []).set (level + 1) [newSST] }

/-- The end of `compactLocked`: the source files are removed, errors
ignored, and the levels swapped. -/
def removeSources (io : FlushOutcome) (level : ℕ) (sources : List SSTable) (newSST : SSTable)
    (s : Store) : Exit :=
  let d := s.disk.unlink ((sources.map (·.path)).filter io.unlinked)
  if io.unlinkCrash then .crashed d
  else .returned { tree := s.tree.swapLevels level newSST, disk := d } false

/-- The middle of `compactLocked`: the sources are merged into a table of
the next level. -/
def mergeSources (env : Env) (io : FlushOutcome) (level : ℕ) (sources : List SSTable)
    (s : Store) : Exit :=
  match mergeTables env.codec sources, io.scan with
  | some entries, true =>
    match writeSSTable env.codec (s.nextSSTablePath env (level + 1)) entries io.merge
        s.tick.disk with
    | .crash d => .crashed d
    | .error d => .returned { s.tick with disk := d } true
    | .ok newSST d => removeSources io level sources newSST { s.tick with disk := d }
  | _, _ => .returned s true

/-- `compactLocked`: merges the tables of `level` and of the next level
into one table of the next level. That level then holds one table, which
is below the threshold for compacting it in turn. -/
def compactLocked (env : Env) (io : FlushOutcome) (level : ℕ) (s : Store) : Exit :=
  let s := s.padded level
  let sources := s.tree.level level ++ s.tree.level (level + 1)
  if sources.isEmpty then .returned s false else mergeSources env io level sources s

/-! ## Flushing -/

/-- The log truncated, and its sequence number reset or not. -/
def Store.truncateWal (s : Store) (reset : Bool) : Store :=
  { tree := { s.tree with walSeq := if reset then 0 else s.tree.walSeq }
    disk := { s.disk with wal := [], synced := 0 } }

/-- `WAL.Rotate`. -/
def rotate (call : Call RotateStop) (s : Store) : Exit :=
  match call with
  | .ok => .returned (s.truncateWal true) false
  | .error .truncate => .returned s true
  | .error .seek => .returned (s.truncateWal false) true
  | .error .sync => .returned (s.truncateWal true) true
  | .crash .truncate => .crashed s.disk
  | .crash _ => .crashed (s.truncateWal true).disk

/-- The swap of `flushLocked`: the memtable becomes the immutable one. -/
def LSMTree.swapMemtable (t : LSMTree) : LSMTree :=
  { t with memtable := .new, immutable := some t.memtable }

/-- The rollback of that swap when the table could not be written. -/
def LSMTree.rollback (t : LSMTree) (imm : MemTable) : LSMTree :=
  { t with memtable := imm, immutable := none }

/-- The flushed table is on level 0 now. -/
def LSMTree.install (t : LSMTree) (sst : SSTable) : LSMTree :=
  { t with levels := t.levels.set 0 (t.level 0 ++ [sst]), immutable := none }

/-- The end of `flushLocked`: the log is rotated and a full level 0
compacted. -/
def finishFlush (env : Env) (io : FlushOutcome) (s : Store) : Exit :=
  match rotate io.rotate s with
  | .crashed d => .crashed d
  | .returned s true => .returned s true
  | .returned s false =>
    if (s.tree.level 0).length > level0CompactThreshold then compactLocked env io 0 s
    else .returned s false

/-- `flushLocked`. -/
def flushLocked (env : Env) (io : FlushOutcome) (s : Store) : Exit :=
  if s.tree.memtable.len = 0 then .returned s false
  else
    let imm := s.tree.memtable
    let tree := s.tick.tree.swapMemtable
    match writeSSTable env.codec (s.nextSSTablePath env 0) imm.sortedEntries io.write
        s.tick.disk with
    | .crash d => .crashed d
    | .error d => .returned { tree := tree.rollback imm, disk := d } true
    | .ok sst d => finishFlush env io { tree := tree.install sst, disk := d }

/-! ## Writing and reading -/

/-- The two records a write of `entry` adds to the log. -/
def writeRecords (s : Store) (entry : StatEntry) (val : Bytes) : Bytes × Bytes :=
  (appendRecord (s.tree.walSeq + 1) (entryKey entry) val, commitRecord (s.tree.walSeq + 1))

/-- `Write` up to the flush: the log first, synced, then the memtable, the
commit marker, and the cache. -/
def Store.applyEntry (env : Env) (s : Store) (entry : StatEntry) (val : Bytes) : Store :=
  let (record, marker) := writeRecords s entry val
  { tree := { s.tree with
      walSeq := s.tree.walSeq + 1
      memtable := s.tree.memtable.put env.codec (entryKey entry) entry
      blockCache := s.tree.blockCache.remove (entryKey entry) }
    disk := ((s.disk.appendWal record).syncWal).appendWal marker }

/-- The locked section of `Write`, for an entry that marshals to `val`. -/
def writeLocked (env : Env) (io : FlushOutcome) (s : Store) (entry : StatEntry) (val : Bytes) :
    Exit :=
  let s := s.applyEntry env entry val
  if s.tree.memtable.size > s.tree.maxMemBytes then flushLocked env io s
  else .returned s false

/-- `Write`. -/
def write (env : Env) (io : FlushOutcome) (s : Store) (entry : StatEntry) : Exit :=
  match env.codec.marshal entry with
  | none => .returned s true
  | some val => writeLocked env io s entry val

/-- The directory with both records of a write handed to it and none
synced, for a machine that stops while `Write` is writing them. -/
def Store.tornWrite (s : Store) (entry : StatEntry) (val : Bytes) : Disk :=
  let (record, marker) := writeRecords s entry val
  (s.disk.appendWal record).appendWal marker

/-- The tables of one level, newest first: below the top the first hit
suffices. -/
def readTables (c : Codec) (key : GoString) (lvl : ℕ) :
    List SSTable → Option StatEntry → Option StatEntry
  | [], best => best
  | t :: ts, best =>
    match t.get c key with
    | none => readTables c key lvl ts best
    | some e =>
      let best := pickNewer best (some e)
      if lvl > 0 then best else readTables c key lvl ts best

/-- The loop of `Read` over the levels. -/
def readLevels (c : Codec) (key : GoString) : ℕ → List (List SSTable) → Option StatEntry →
    Option StatEntry
  | _, [], best => best
  | lvl, tables :: rest, best =>
    readLevels c key (lvl + 1) rest (readTables c key lvl tables.reverse best)

/-- The entry the locked section of `Read` arrives at. -/
def LSMTree.lookup (t : LSMTree) (c : Codec) (key : GoString) : Option StatEntry :=
  let best := pickNewer none (t.memtable.get key)
  let best := pickNewer best (t.immutable.bind fun m => m.get key)
  readLevels c key 0 t.levels best

/-- The locked section of `Read`: what it finds goes to the cache. -/
def LSMTree.readLocked (t : LSMTree) (c : Codec) (key : GoString) : Option StatEntry × LSMTree :=
  match t.lookup c key with
  | none => (none, t)
  | some best =>
    match c.marshal best with
    | none => (some best, t)
    | some val => (some best, { t with blockCache := t.blockCache.put key val })

/-- The look of `Read` at the block cache. -/
def LSMTree.readCache (t : LSMTree) (c : Codec) (key : GoString) : Option StatEntry × LSMTree :=
  ((t.blockCache.get key).1.bind c.unmarshal, { t with blockCache := (t.blockCache.get key).2 })

/-- `Read`. -/
def LSMTree.read (t : LSMTree) (c : Codec) (key : GoString) : Option StatEntry × LSMTree :=
  match t.readCache c key with
  | (some e, t) => (some e, t)
  | (none, t) => t.readLocked c key

end Metastore

end TftAnalytics

import TftAnalytics.Metastore.Model.Table
import TftAnalytics.Metastore.Model.Bloom
/-!
# Metastore — the bytes of a table

`sstable.go` over the bytes of a file: the sections `writeSSTable` writes
(data, index, filter, footer), what `openSSTable` parses of them, and the
lookups that go through the filter, the index and the file. System calls
succeed; what can fail is encoding and decoding, and on opening whatever
the bytes make the parser do, in the memory of the process that opens
them.
-/

namespace TftAnalytics

namespace Metastore

/-- `ssTableMagic`. -/
def ssTableMagic : ℕ := 0x7466745353544142

/-- A Go map from keys to byte offsets. -/
abbrev Index := AList fun _ : GoString => ℤ

/-- `SSTable`, opened: its file, its filter and its index. -/
structure TableFile where
  f : Bytes
  bloomFilter : BloomFilter
  index : Index
  sortedKeys : List GoString

namespace TableFile

/-! ## Writing -/

/-- A record of the data section: `[keyLen u32][key][valLen u32][value]`. -/
def recordBytes (r : GoString × Bytes) : Bytes :=
  beBytes 4 r.1.length ++ r.1 ++ beBytes 4 r.2.length ++ r.2

/-- A row of the index section: `[keyLen u32][key][dataOffset u64]`. -/
def indexRow (key : GoString) (off : ℤ) : Bytes :=
  beBytes 4 key.length ++ key ++ beBytes 8 (off % 2 ^ 64).toNat

/-- The variables of `writeSSTable`'s loop over the entries, and the bytes
written. -/
structure TableWriter where
  file : Bytes
  index : Index
  sortedKeys : List GoString
  bloom : BloomFilter
  pos : ℤ

namespace TableWriter

/-- Before the loop. -/
def start (bloom : BloomFilter) : TableWriter := ⟨[], ∅, [], bloom, 0⟩

/-- One turn of the loop. -/
def add (P : BloomParams) (w : TableWriter) (r : GoString × Bytes) :
    Except Fault TableWriter := do
  let bloom ← w.bloom.add P r.1
  pure
    { file := w.file ++ recordBytes r
      index := w.index.insert r.1 w.pos
      sortedKeys := w.sortedKeys ++ [r.1]
      bloom := bloom
      pos := w.pos + (recordBytes r).length }

/-- The index section: the number of keys, and a row for each. It is built
in memory, so it has to be one allocation. -/
def indexSection (w : TableWriter) : Except Fault Bytes :=
  let idxBuf := beBytes 4 w.sortedKeys.length
    ++ w.sortedKeys.flatMap fun key => indexRow key ((w.index.lookup key).getD 0)
  if idxBuf.length ≤ maxAlloc then .ok idxBuf else .error .panic

end TableWriter

/-- The footer: `indexOff`, `indexLen`, `bloomOff`, `bloomLen`, and the
magic number. -/
def footerBytes (indexOff indexLen bloomOff bloomLen : ℕ) : Bytes :=
  beBytes 8 indexOff ++ beBytes 8 indexLen ++ beBytes 8 bloomOff ++ beBytes 8 bloomLen
    ++ beBytes 8 ssTableMagic

/-- `writeSSTable`, up to the call of `openSSTable`: the bytes of the
file. An entry that does not marshal is an error. -/
def writeSSTable (c : Codec) (P : BloomParams) (entries : List StatEntry) :
    Except Fault Bytes := do
  let records ← match tableRecords c entries with
    | some records => .ok records
    | none => .error .error
  let w ← records.foldlM (TableWriter.add P) (.start (newBloomFilter P entries.length))
  let idxBuf ← w.indexSection
  let bloomBuf := w.bloom.marshal
  let indexOff := w.pos.toNat
  pure (w.file ++ idxBuf ++ bloomBuf
    ++ footerBytes indexOff idxBuf.length (indexOff + idxBuf.length) bloomBuf.length)

/-! ## Opening -/

/-- The loop of `openSSTable` over the index section, from byte `p` on,
with `n` rows to go. -/
def readIndex (idxBuf : Bytes) : ℕ → ℕ → Index → List GoString →
    Except Fault (Index × List GoString)
  | 0, _, index, sortedKeys => .ok (index, sortedKeys)
  | n + 1, p, index, sortedKeys => do
    let keyLen ← fieldAt idxBuf p 4
    let key ← slice idxBuf (p + 4) (p + 4 + keyLen)
    let off ← fieldAt idxBuf (p + 4 + keyLen) 8
    readIndex idxBuf n (p + 4 + keyLen + 8) (index.insert key (asInt64 off)) (sortedKeys ++ [key])

/-- `openSSTable`, of a file with these bytes. -/
def openSSTable (rt : Runtime) (P : BloomParams) (f : Bytes) : Except Fault TableFile :=
  if f.length < 40 then .error .error else do
    let footer ← fileReadAt f 40 (f.length - 40)
    let magic ← fieldAt footer 32 8
    if magic ≠ ssTableMagic then .error .error else do
      let indexOff ← fieldAt footer 0 8
      let indexLen ← fieldAt footer 8 8
      let bloomOff ← fieldAt footer 16 8
      let bloomLen ← fieldAt footer 24 8
      let idxLen ← rt.makeBytes (asInt64 indexLen)
      let idxBuf ← fileReadAt f idxLen (asInt64 indexOff)
      let blmLen ← rt.makeBytes (asInt64 bloomLen)
      let bloomBuf ← fileReadAt f blmLen (asInt64 bloomOff)
      let count ← fieldAt idxBuf 0 4
      rt.make (.map count)
      rt.make (.strings count)
      let (index, sortedKeys) ← readIndex idxBuf count 4 ∅ []
      let bloomFilter ← unmarshalBloomIn rt P bloomBuf
      pure { f := f, bloomFilter := bloomFilter, index := index, sortedKeys := sortedKeys }

/-- One turn of the loop of `loadLevels`, over a file by the level in its
name and its bytes: a file that does not open is skipped. -/
def loadFile (rt : Runtime) (P : BloomParams) (levels : List (List TableFile))
    (file : ℕ × Bytes) : Except Fault (List (List TableFile)) :=
  match openSSTable rt P file.2 with
  | .error .panic => .error .panic
  | .error .error => .ok levels
  | .ok sst =>
    let levels := levels ++ List.replicate (file.1 + 1 - levels.length) []
    .ok (levels.set file.1 (levels.getD file.1 [] ++ [sst]))

/-- `loadLevels`, over the files of the directory. -/
def loadFiles (rt : Runtime) (P : BloomParams) (files : List (ℕ × Bytes)) :
    Except Fault (List (List TableFile)) :=
  files.foldlM (loadFile rt P) [[]]

/-! ## Lookups -/

/-- `readAt`: the value of the record at an offset, decoded. -/
def readAt (t : TableFile) (c : Codec) (off : ℤ) : Except Fault StatEntry := do
  let keyLen ← fileReadAt t.f 4 off
  let valLen ← fileReadAt t.f 4 (off + 4 + beNat keyLen)
  let val ← fileReadAt t.f (beNat valLen) (off + 4 + beNat keyLen + 4)
  match c.unmarshal val with
  | some e => .ok e
  | none => .error .error

/-- `Get`: the filter first, then the index, then the file. -/
def get (t : TableFile) (P : BloomParams) (c : Codec) (key : GoString) :
    Except Fault (Option StatEntry) := do
  if ← t.bloomFilter.mayContain P key then
    match t.index.lookup key with
    | none => pure none
    | some off => do
      let e ← t.readAt c off
      pure (some e)
  else pure none

/-- `Scan`: the entries that match, key by key; an error ends it. -/
def scan (t : TableFile) (c : Codec) (keep : StatEntry → Bool) :
    Except Fault (List StatEntry) := do
  let es ← t.sortedKeys.mapM fun key => t.readAt c ((t.index.lookup key).getD 0)
  pure (es.filter keep)

end TableFile

end Metastore

end TftAnalytics

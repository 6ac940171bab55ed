import TftAnalytics.Metastore.Model.Entry
import Mathlib.Data.List.Sort
/-!
# Metastore — memtables and sorted string tables

`memtable.go`, and `sstable.go` at the level of its records: a table is
the list of its key-value pairs in file order, the index names the last
record of each key, and what a lookup returns is the decoded value. The
Bloom filter never rejects a key of its own table, so a lookup it answers
is one the index would answer the same, and it is left out here. A file
that is not a complete table fails to open.
-/

namespace TftAnalytics

namespace Metastore

/-! ## Memtables -/

/-- `MemTable`: the entries by key, and their approximate size. -/
structure MemTable where
  data : AList fun _ : GoString => StatEntry
  size : ℤ

namespace MemTable

/-- `NewMemTable`. -/
def new : MemTable := ⟨∅, 0⟩

/-- `Put`: conflicts go to `pickNewer`. -/
def put (m : MemTable) (c : Codec) (key : GoString) (entry : StatEntry) : MemTable :=
  match m.data.lookup key with
  | some existing =>
    let winner := newerOf existing entry
    { data := m.data.insert key winner, size := m.size + (c.size winner - c.size existing) }
  | none => { data := m.data.insert key entry, size := m.size + (key.length + c.size entry) }

/-- `Get`. -/
def get (m : MemTable) (key : GoString) : Option StatEntry := m.data.lookup key

/-- `Len`. -/
def len (m : MemTable) : ℕ := m.data.keys.length

/-- `SortedEntries`. -/
def sortedEntries (m : MemTable) : List StatEntry :=
  (m.data.keys.insertionSort (· ≤ ·)).filterMap fun k => m.data.lookup k

end MemTable

/-! ## Tables -/

/-- What a file name says: `L<level>-<UnixNano>-<seq>.sst`. -/
structure SSTPath where
  level : ℕ
  nano : ℕ
  seq : UInt64
  deriving DecidableEq

/-- The order of names, by which `Glob` lists a directory. The stamps have
one length, so that names compare as the numbers in them. -/
def SSTPath.le (p q : SSTPath) : Prop :=
  p.level < q.level ∨ p.level = q.level ∧ (p.nano < q.nano ∨ p.nano = q.nano ∧ p.seq ≤ q.seq)

instance : DecidableRel SSTPath.le := fun _ _ => inferInstanceAs (Decidable (_ ∨ _))

/-- The data section of a table: its records, in file order. -/
abbrev TableData := List (GoString × Bytes)

/-- `SSTable`, opened. -/
structure SSTable where
  path : SSTPath
  data : TableData

namespace SSTable

/-- `index`, followed to the record: the last one written for the key. -/
def index (t : SSTable) (key : GoString) : Option Bytes := t.data.reverse.lookup key

/-- `Get`: nothing for an absent key, and for a value that does not
decode, which `Read` treats alike. -/
def get (t : SSTable) (c : Codec) (key : GoString) : Option StatEntry :=
  (t.index key).bind c.unmarshal

/-- `Scan`: the entries that match, in file order, unless a value does not
decode. -/
def scan (t : SSTable) (c : Codec) (keep : StatEntry → Bool) : Option (List StatEntry) :=
  (t.data.mapM fun r => t.get c r.1).map fun es => es.filter keep

end SSTable

/-- The records `writeSSTable` writes: the entries sorted by key, each
marshalled. -/
def tableRecords (c : Codec) (entries : List StatEntry) : Option TableData :=
  (entries.insertionSort fun a b => entryKey a ≤ entryKey b).mapM fun e =>
    (c.marshal e).map fun val => (entryKey e, val)

end Metastore

end TftAnalytics

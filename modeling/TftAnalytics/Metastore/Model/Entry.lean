import TftAnalytics.Common.Bytes
import Mathlib.Data.List.AList
/-!
# Metastore — stat entries and their clocks

`StatEntry` and `VectorClock` as `tft.proto` declares them, the primary
key of an entry, the conflict resolution of `vclock.go`, and what the
store relies on of the protobuf encoding. Counters and
sample sizes are `int64`s, and a clock's sum wraps as Go's does; rates
are carried as the bit patterns of their `double`s, since the store never
computes with them.
-/

namespace TftAnalytics

namespace Metastore

/-- A vector clock: a map from nodes to counters, listed in ascending key
order so that equal maps are equal values. -/
structure VectorClock where
  clocks : AList fun _ : GoString => Int64
  sorted : clocks.keys.Pairwise (· < ·)

instance : DecidableEq VectorClock := fun a b =>
  decidable_of_iff (a.clocks.entries = b.clocks.entries) <| by
    rw [AList.ext_iff.symm]
    cases a
    cases b
    simp

/-- A stat entry. -/
structure StatEntry where
  entityId : GoString
  entityType : GoString
  patch : GoString
  region : GoString
  tier : GoString
  winRate : UInt64
  avgPlacement : UInt64
  playRate : UInt64
  sampleSize : Int64
  clock : Option VectorClock
  deriving DecidableEq

/-- The byte `:`. -/
def colon : UInt8 := 58

/-- `entryKey`: the canonical primary key, `id:patch:tier:region`. -/
def entryKey (e : StatEntry) : GoString :=
  e.entityId ++ [colon] ++ e.patch ++ [colon] ++ e.tier ++ [colon] ++ e.region

/-- `clockMap`: the counters of a clock, none for `nil`. -/
def clockMap : Option VectorClock → AList fun _ : GoString => Int64
  | none => ∅
  | some vc => vc.clocks

/-- `m[node]` on a map of counters: zero for a missing key. -/
def counter (m : AList fun _ : GoString => Int64) (node : GoString) : Int64 :=
  (m.lookup node).getD 0

/-- `vcSum`: the total of a clock's counters, in wrapping `int64`
arithmetic. -/
def vcSum (vc : Option VectorClock) : Int64 :=
  (clockMap vc).entries.foldl (fun s p => s + p.2) 0

/-- `vcDominates`: no counter of `b` exceeds the one of `a`. -/
def vcDominates (a b : Option VectorClock) : Bool :=
  (clockMap b).entries.all fun p => !(counter (clockMap a) p.1 < p.2)

/-- The body of `pickNewer`, on two entries: dominance first, then the
larger clock sum, then the larger sample, and the first argument on what
is left. -/
def newerOf (a b : StatEntry) : StatEntry :=
  let aDom := vcDominates a.clock b.clock
  let bDom := vcDominates b.clock a.clock
  if aDom && !bDom then a
  else if bDom && !aDom then b
  else if vcSum a.clock ≠ vcSum b.clock then
    if vcSum a.clock > vcSum b.clock then a else b
  else if a.sampleSize ≥ b.sampleSize then a
  else b

/-- `pickNewer`: a `nil` entry loses. -/
def pickNewer : Option StatEntry → Option StatEntry → Option StatEntry
  | none, b => b
  | a, none => a
  | some a, some b => some (newerOf a b)

/-- Protocol Buffers as the store uses them. What `Marshal` accepts it
encodes so that `Unmarshal` gives it back, in less than the 2 GiB a
message may take, and an encoding contains the strings of the entry. -/
structure Codec where
  marshal : StatEntry → Option Bytes
  unmarshal : Bytes → Option StatEntry
  unmarshal_marshal : ∀ {e b}, marshal e = some b → unmarshal b = some e
  length_lt : ∀ {e b}, marshal e = some b → b.length < 2 ^ 31
  strings_le : ∀ {e b}, marshal e = some b →
    e.entityId.length + e.patch.length + e.tier.length + e.region.length ≤ b.length

/-- The codec that a finite table of encodings gives. -/
def Codec.ofTable (l : List (StatEntry × Bytes))
    (h : ∀ p ∈ l, (l.find? fun q => q.2 = p.2) = some p ∧ p.2.length < 2 ^ 31 ∧
      p.1.entityId.length + p.1.patch.length + p.1.tier.length + p.1.region.length
        ≤ p.2.length) : Codec :=
  have hmem : ∀ {e b}, (l.find? fun q => q.1 = e).map (·.2) = some b → (e, b) ∈ l := by
    intro e b hb
    obtain ⟨q, hq, rfl⟩ := Option.map_eq_some_iff.mp hb
    have hqe : q.1 = e := by simpa using List.find?_some hq
    exact hqe ▸ List.mem_of_find?_eq_some hq
  { marshal := fun e => (l.find? fun q => q.1 = e).map (·.2)
    unmarshal := fun b => (l.find? fun q => q.2 = b).map (·.1)
    unmarshal_marshal := fun hb => by rw [(h _ (hmem hb)).1, Option.map_some]
    length_lt := fun hb => (h _ (hmem hb)).2.1
    strings_le := fun hb => (h _ (hmem hb)).2.2 }

/-- `proto.Size`: the length of the encoding. -/
def Codec.size (c : Codec) (e : StatEntry) : ℤ := ((c.marshal e).getD []).length

end Metastore

end TftAnalytics

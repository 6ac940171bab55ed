import TftAnalytics.Common.Bytes
/-!
# Broker — the names of partitions

How `partition.go` makes the key of a partition from a topic, a region and
a tier, takes a key apart again, and makes a file name of it.
-/

namespace TftAnalytics

namespace Broker

/-- The byte `_`. -/
def underscore : UInt8 := 95

/-- An empty region or tier stands for all of them. -/
def orAll (s : GoString) : GoString := if s = [] then ascii "ALL" else s

/-- `partitionKey`. -/
def partitionKey (topic region tier : GoString) : GoString :=
  topic ++ [underscore] ++ orAll region ++ [underscore] ++ orAll tier

/-- `strings.LastIndex` of a single byte. -/
def lastIndex (c : UInt8) : GoString → Option ℕ
  | [] => none
  | x :: s =>
    match lastIndex c s with
    | some i => some (i + 1)
    | none => if x = c then some 0 else none

/-- `splitKey`: the topic, the region and the tier. -/
def splitKey (key : GoString) : GoString × GoString × GoString :=
  match lastIndex underscore key with
  | none => (key, ascii "ALL", ascii "ALL")
  | some last =>
    let tier := key.drop (last + 1)
    let rest := key.take last
    match lastIndex underscore rest with
    | none => (rest, ascii "ALL", tier)
    | some prev => (rest.take prev, rest.drop (prev + 1), tier)

/-- The key that `backfill` publishes the records of a partition under. -/
def rejoin (key : GoString) : GoString :=
  partitionKey (splitKey key).1 (splitKey key).2.1 (splitKey key).2.2

/-- A byte that `sanitize` lets stand. -/
def Safe (c : UInt8) : Prop :=
  97 ≤ c ∧ c ≤ 122 ∨ 65 ≤ c ∧ c ≤ 90 ∨ 48 ≤ c ∧ c ≤ 57 ∨ c = underscore ∨ c = 45

instance : DecidablePred Safe := fun c =>
  inferInstanceAs (Decidable (97 ≤ c ∧ c ≤ 122 ∨ 65 ≤ c ∧ c ≤ 90 ∨ 48 ≤ c ∧ c ≤ 57 ∨
    c = underscore ∨ c = 45))

/-- `sanitize`. -/
def sanitize (key : GoString) : GoString := key.map fun c => if Safe c then c else underscore

/-- The name of a partition's file in the data directory. -/
def logName (key : GoString) : GoString := sanitize key ++ ascii ".log"

/-- A topic, a region and a tier, as a request names them. -/
structure Stream where
  topic : GoString
  region : GoString
  tier : GoString
  deriving DecidableEq

/-- The key of the partition a request is for. -/
def Stream.key (s : Stream) : GoString := partitionKey s.topic s.region s.tier

/-- The request's stream with what is empty filled in. -/
def Stream.filled (s : Stream) : Stream := ⟨s.topic, orAll s.region, orAll s.tier⟩

end Broker

end TftAnalytics

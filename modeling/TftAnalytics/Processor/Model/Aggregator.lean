import TftAnalytics.Common.Dict
import TftAnalytics.Processor.Model.Event
import Mathlib.Data.Rat.Defs
import Mathlib.Algebra.Order.Ring.Unbundled.Rat
/-!
# Processor — stat aggregation

`aggregator.py`: the placements of every entity, by `(entity_id,
entity_type, patch, tier, region)`, and the boards seen of every `(patch,
tier, region)`. Dictionaries are listed in insertion order. Rates are
exact quotients here; `Stat.toEntry` rounds them to the `double`s of the
proto.
-/

namespace TftAnalytics

namespace Processor

open Metastore (VectorClock StatEntry)

/-- `entity_type`, as the aggregator sets it. -/
inductive EntityType where
  | champion
  | championItem
  | item
  | augment
  | composition
  deriving DecidableEq

/-- The name of an entity type. -/
def EntityType.name : EntityType → GoString
  | .champion => ascii "champion"
  | .championItem => ascii "champion_item"
  | .item => ascii "item"
  | .augment => ascii "augment"
  | .composition => ascii "composition"

/-- `(patch, tier, region)`. -/
@[ext] structure Slice where
  patch : GoString
  tier : GoString
  region : GoString
  deriving DecidableEq

/-- `(entity_id, entity_type, patch, tier, region)`. -/
@[ext] structure StatKey where
  entityId : GoString
  entityType : EntityType
  slice : Slice
  deriving DecidableEq

/-- The key of `max` in `composition_label`: the number of items, the cost,
the id. -/
def carryLt (cost : GoString → ℕ) (u v : MatchUnit) : Bool :=
  decide (u.items.length < v.items.length) ||
    (u.items.length == v.items.length &&
      (decide (cost u.characterId < cost v.characterId) ||
        (cost u.characterId == cost v.characterId && decide (u.characterId < v.characterId))))

/-- `max(units, key=...)`: the first of the largest. -/
def carry (cost : GoString → ℕ) (first : MatchUnit) (rest : List MatchUnit) : MatchUnit :=
  rest.foldl (fun best u => if carryLt cost best u then u else best) first

/-- `composition_label`: a board by its carry, or `Fast9` where there are
three units of cost five and no carry with two items. -/
def compositionLabel (cost : GoString → ℕ) : List MatchUnit → GoString
  | [] => ascii "comp:Unknown"
  | first :: rest =>
    let carry := carry cost first rest
    let fives := (first :: rest).countP fun u => 5 ≤ cost u.characterId
    let base := if carry.items.length < 2 ∧ 3 ≤ fives then ascii "Fast9" else carry.characterId
    ascii "comp:" ++ base

/-- `StatAggregator`. -/
structure StatAggregator where
  buffers : List (StatKey × List Int32)
  totals : List (Slice × ℕ)
  matchesSeen : ℕ
  deriving DecidableEq

/-- An entry of `flush`, with exact rates. -/
structure Stat where
  key : StatKey
  winRate : ℚ
  avgPlacement : ℚ
  playRate : ℚ
  sampleSize : ℕ
  deriving DecidableEq

namespace StatAggregator

/-- `StatAggregator()`. -/
def new : StatAggregator := ⟨[], [], 0⟩

/-- `_add`: a placement of an entity. -/
def add (agg : StatAggregator) (key : StatKey) (placement : Int32) : StatAggregator :=
  { agg with buffers := upsert [] (· ++ [placement]) key agg.buffers }

/-- The loop over the items of a unit; `seen` are the items of the board
so far, each counted once as an item. -/
def addItem (slice : Slice) (placement : Int32) (unit : MatchUnit)
    (acc : StatAggregator × List GoString) (item : GoString) : StatAggregator × List GoString :=
  let agg := acc.1.add ⟨unit.characterId ++ ascii "|" ++ item, .championItem, slice⟩ placement
  if item ∈ acc.2 then (agg, acc.2)
  else (agg.add ⟨item, .item, slice⟩ placement, item :: acc.2)

/-- The loop over the units of a board. -/
def addUnit (slice : Slice) (placement : Int32) (acc : StatAggregator × List GoString)
    (unit : MatchUnit) : StatAggregator × List GoString :=
  unit.items.foldl (addItem slice placement unit)
    (acc.1.add ⟨unit.characterId, .champion, slice⟩ placement, acc.2)

/-- The loop over the players of a match. -/
def addBoard (cost : GoString → ℕ) (slice : Slice) (agg : StatAggregator)
    (player : PlayerResult) : StatAggregator :=
  let agg := { agg with totals := upsert 0 (· + 1) slice agg.totals }
  let agg := (player.units.foldl (addUnit slice player.placement) (agg, [])).1
  let agg := player.augments.foldl
    (fun agg augment => agg.add ⟨augment, .augment, slice⟩ player.placement) agg
  agg.add ⟨compositionLabel cost player.units, .composition, slice⟩ player.placement

/-- `process_match`. -/
def processMatch (cost : GoString → ℕ) (agg : StatAggregator) (m : MatchEvent) :
    StatAggregator :=
  let agg := m.players.foldl (addBoard cost ⟨m.patch, m.tier, m.region⟩) agg
  { agg with matchesSeen := agg.matchesSeen + 1 }

/-- `process_batch`. -/
def processBatch (cost : GoString → ℕ) (agg : StatAggregator) (matches_ : List MatchEvent) :
    StatAggregator :=
  matches_.foldl (processMatch cost) agg

/-- The loop of `flush`: the stats of one entity, none where it has no
placement. -/
def stat (totals : List (Slice × ℕ)) (p : StatKey × List Int32) : Option Stat :=
  let size := p.2.length
  if size = 0 then none
  else
    let total := (totals.lookup p.1.slice).getD size
    let playRate : ℚ := if total = 0 then 0 else size / total
    some
      { key := p.1
        winRate := (p.2.countP fun x => decide (x ≤ 4)) / size
        avgPlacement := ((p.2.map fun x => x.toInt).sum : ℤ) / size
        playRate := min playRate 1
        sampleSize := size }

/-- `flush`: the stats of every entity, and a reset. -/
def flush (agg : StatAggregator) : StatAggregator × List Stat :=
  (new, agg.buffers.filterMap (stat agg.totals))

end StatAggregator

/-- The proto of a stat, under a clock. -/
def Stat.toEntry (double : ℚ → UInt64) (clock : VectorClock) (s : Stat) : StatEntry :=
  { entityId := s.key.entityId
    entityType := s.key.entityType.name
    patch := s.key.slice.patch
    region := s.key.slice.region
    tier := s.key.slice.tier
    winRate := double s.winRate
    avgPlacement := double s.avgPlacement
    playRate := double s.playRate
    sampleSize := Int64.ofNat s.sampleSize
    clock := some clock }

end Processor

end TftAnalytics

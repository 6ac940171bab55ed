import TftAnalytics.Processor.Model.Aggregator
import TftAnalytics.Common.Grouping
/-!
# Processor — what a board counts for

The aggregation as it is meant, without dictionaries and loops: the keys a
board contributes its placement to, the contributions and the boards of a
batch, and the stats of a key over them.
-/

namespace TftAnalytics

namespace Processor

/-- The `(patch, tier, region)` of a match. -/
def MatchEvent.slice (m : MatchEvent) : Slice := ⟨m.patch, m.tier, m.region⟩

/-- A champion with an item, under a joined id. -/
def pairKey (slice : Slice) (unit : MatchUnit) (item : GoString) : StatKey :=
  ⟨unit.characterId ++ ascii "|" ++ item, .championItem, slice⟩

/-- An item, wherever it is on the board. -/
def itemKey (slice : Slice) (item : GoString) : StatKey := ⟨item, .item, slice⟩

/-- **The keys of a board**: the champion of each unit, each item of a unit
with its champion, each item once, each augment, and the composition. -/
def PlayerResult.keys (cost : GoString → ℕ) (slice : Slice) (player : PlayerResult) :
    List StatKey :=
  (player.units.map fun unit => ⟨unit.characterId, .champion, slice⟩)
    ++ (player.units.flatMap fun unit => unit.items.map (pairKey slice unit))
    ++ (player.units.flatMap (·.items)).dedup.map (itemKey slice)
    ++ (player.augments.map fun augment => ⟨augment, .augment, slice⟩)
    ++ [⟨compositionLabel cost player.units, .composition, slice⟩]

/-- A board contributes its placement to each of them. -/
def PlayerResult.contributions (cost : GoString → ℕ) (slice : Slice) (player : PlayerResult) :
    List (StatKey × Int32) :=
  (player.keys cost slice).map fun key => (key, player.placement)

/-- The boards of a batch, each with its slice. -/
def seated (batch : List MatchEvent) : List (Slice × PlayerResult) :=
  batch.flatMap fun m => m.players.map fun player => (m.slice, player)

/-- The contributions of a batch. -/
def contributions (cost : GoString → ℕ) (batch : List MatchEvent) : List (StatKey × Int32) :=
  (seated batch).flatMap fun b => b.2.contributions cost b.1

/-- The boards of a batch, by their slices. -/
def boards (batch : List MatchEvent) : List Slice := (seated batch).map Prod.fst

/-- The stats of a key with these placements, out of so many boards. -/
def statOf (key : StatKey) (placements : List Int32) (boards : ℕ) : Stat :=
  { key := key
    winRate := (placements.countP fun x => decide (x ≤ 4)) / placements.length
    avgPlacement := ((placements.map fun x => x.toInt).sum : ℤ) / placements.length
    playRate := min (placements.length / boards) 1
    sampleSize := placements.length }

/-- **The stats of a batch**: of each key that occurs, those of its
contributions, out of the boards of its slice. -/
def specification (cost : GoString → ℕ) (batch : List MatchEvent) : List Stat :=
  ((contributions cost batch).map Prod.fst).dedup.map fun key =>
    statOf key (valuesAt (contributions cost batch) key) ((boards batch).count key.slice)

/-- What the aggregator makes of a batch: `process_batch`, then `flush`. -/
def aggregated (cost : GoString → ℕ) (batch : List MatchEvent) : List Stat :=
  (StatAggregator.new.processBatch cost batch).flush.2

/-! ## Shuffles -/

/-- The same board, with its units in another order. -/
def PlayerResult.Shuffle (player player' : PlayerResult) : Prop :=
  ∃ units, units.Perm player.units ∧ player' = { player with units := units }

/-- The same match, with its players in another order, and their units. -/
def MatchEvent.Shuffle (m m' : MatchEvent) : Prop :=
  ∃ players players', players.Perm m.players ∧
    List.Forall₂ PlayerResult.Shuffle players players' ∧ m' = { m with players := players' }

/-- The same matches in another order, each shuffled. -/
def Shuffled (batch batch' : List MatchEvent) : Prop :=
  ∃ ms, ms.Perm batch ∧ List.Forall₂ MatchEvent.Shuffle ms batch'

end Processor

end TftAnalytics

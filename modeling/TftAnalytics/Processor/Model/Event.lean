import TftAnalytics.Metastore.Model.Entry
/-!
# Processor — match events

`MatchEvent` as `tft.proto` declares it, with the fields that the
processor reads: the board of each player, and the vector clock that
ingestion stamps on an event. Strings are their UTF-8 bytes, which Python
compares in the same order.
-/

namespace TftAnalytics

namespace Processor

open Metastore (VectorClock clockMap counter)

/-- A champion on a board, with its items. -/
structure MatchUnit where
  characterId : GoString
  items : List GoString
  deriving DecidableEq

/-- The board and the placement of a player. -/
structure PlayerResult where
  placement : Int32
  units : List MatchUnit
  augments : List GoString
  deriving DecidableEq

/-- A finished match. -/
structure MatchEvent where
  region : GoString
  patch : GoString
  tier : GoString
  players : List PlayerResult
  clock : Option VectorClock
  deriving DecidableEq

/-- What carries a vector clock: `event.clock`. -/
class HasClock (ε : Type) where
  clock : ε → Option VectorClock

instance : HasClock MatchEvent := ⟨MatchEvent.clock⟩

variable {ε : Type} [HasClock ε]

/-- `event.clock.clocks.items()`; a clock that is not set has none. -/
def clockItems (event : ε) : List (GoString × ℤ) :=
  (clockMap (HasClock.clock event)).entries.map fun p => (p.1, p.2.toInt)

/-- The component of an event's clock at a node, zero where it is
missing. -/
def seqOf (event : ε) (node : GoString) : ℤ :=
  (counter (clockMap (HasClock.clock event)) node).toInt

end Processor

end TftAnalytics

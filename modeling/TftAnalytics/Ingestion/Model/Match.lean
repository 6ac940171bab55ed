import TftAnalytics.Common.Dict
import TftAnalytics.Common.Text
import TftAnalytics.Processor.Model.Event
import Mathlib.Data.List.Sort
import Mathlib.Data.Rat.Defs
import Mathlib.Algebra.Order.Ring.Unbundled.Rat
/-!
# Ingestion — where matches come from

`generate_match` of `synthetic.py` and `normalize` of `riot_client.py`. What
the generator draws is an argument, and so are the digest of a string and
the time. Floats are rationals here. What `normalize` is given is the JSON
of a match, with each field that may be missing an option.
-/

namespace TftAnalytics

namespace Ingestion

open Metastore (VectorClock)

/-- `pb.Unit`. -/
structure PbUnit where
  characterId : GoString
  tier : Int32
  items : List GoString
  deriving DecidableEq

/-- `pb.PlayerResult`. -/
structure PbPlayerResult where
  puuid : GoString
  placement : Int32
  units : List PbUnit
  augments : List GoString
  roundsPlayed : Int32
  deriving DecidableEq

/-- `pb.MatchEvent`. -/
structure PbMatchEvent where
  matchId : GoString
  region : GoString
  patch : GoString
  tier : GoString
  players : List PbPlayerResult
  clock : VectorClock
  timestamp : Int64
  deriving DecidableEq

/-- What the processor reads of a unit. -/
def PbUnit.received (u : PbUnit) : Processor.MatchUnit := ⟨u.characterId, u.items⟩

/-- What it reads of a player. -/
def PbPlayerResult.received (p : PbPlayerResult) : Processor.PlayerResult :=
  ⟨p.placement, p.units.map PbUnit.received, p.augments⟩

/-- What it reads of an event. -/
def PbMatchEvent.received (e : PbMatchEvent) : Processor.MatchEvent :=
  ⟨e.region, e.patch, e.tier, e.players.map PbPlayerResult.received, some e.clock⟩

/-- A number as an `int32` field; others raise. -/
def int32 (z : ℤ) : Option Int32 :=
  if -2 ^ 31 ≤ z ∧ z < 2 ^ 31 then some (Int32.ofInt z) else none

/-- A number as an `int64` field; others raise. -/
def int64 (z : ℤ) : Option Int64 :=
  if -2 ^ 63 ≤ z ∧ z < 2 ^ 63 then some (Int64.ofInt z) else none

theorem pairwise_keys_singleton (nodeId : GoString) (seq : Int64) :
    (AList.singleton nodeId seq : AList fun _ : GoString => Int64).keys.Pairwise (· < ·) :=
  List.pairwise_singleton _ _

/-- `VectorClock(clocks={node_id: seq})`. -/
def nodeClock (nodeId : GoString) (seq : Int64) : VectorClock :=
  ⟨AList.singleton nodeId seq, pairwise_keys_singleton nodeId seq⟩

/-! ## Synthetic matches -/

/-- A row of `COMPS`, with the fields that are read. -/
structure Comp where
  id : GoString
  carry : Option GoString
  units : List GoString

/-- The tables of `tft_data.py` that the generator reads. -/
structure Tables where
  comps : List Comp
  items : List GoString
  augments : List GoString
  championCost : List (GoString × ℕ)
  highEloFavorites : List GoString
  trapAugment : GoString

/-- `_HIGH_TIERS`. -/
def highTiers : List GoString :=
  [ascii "DIAMOND", ascii "MASTER", ascii "GRANDMASTER", ascii "CHALLENGER"]

/-- `_comp_strength`; `md5` is the first eight hexadecimal digits. -/
def compStrength (md5 : GoString → ℕ) (compId : GoString) : ℚ :=
  (md5 compId % 100 : ℕ) / 100 * (32 / 100) - 16 / 100

/-- `_placement_bias`. -/
def placementBias (md5 : GoString → ℕ) (td : Tables) (units augments : List GoString)
    (tier compId : GoString) : ℚ :=
  let score : ℚ := if compId = [] then 0 else compStrength md5 compId
  let score : ℚ := units.foldl
    (fun score u =>
      let cost : ℕ := held 2 td.championCost u
      let score := score - cost * (4 / 100)
      if u ∈ td.highEloFavorites ∧ tier ∈ highTiers then score - 8 / 100 else score)
    score
  if td.trapAugment ∈ augments then score + 10 / 100 else score

/-- What is drawn for a player: the comp, the items and the tier of each of
its units, the augments, and the rest. -/
structure Draw where
  comp : Comp
  hands : List (List GoString × Int32)
  augments : List GoString
  gauss : ℚ
  puuid : GoString
  roundsPlayed : Int32

/-- How many items `_comp_board` may draw for a unit. -/
def itemCounts (carry : Option GoString) (cid : GoString) : List ℕ :=
  if carry = some cid then [2, 3] else [0, 1]

/-- **What can be drawn.** `sample` draws without repetition. -/
structure Draw.Possible (td : Tables) (d : Draw) : Prop where
  comp : d.comp ∈ td.comps
  hands : List.Forall₂
    (fun cid (hand : List GoString × Int32) => hand.1.Subperm td.items ∧
      hand.1.length ∈ itemCounts d.comp.carry cid ∧ 1 ≤ hand.2 ∧ hand.2 ≤ 3)
    d.comp.units d.hands
  augments : d.augments.Subperm td.augments ∧ d.augments.length ∈ [2, 3]
  roundsPlayed : 28 ≤ d.roundsPlayed ∧ d.roundsPlayed ≤ 42

/-- The board that `_comp_board` builds. -/
def Draw.board (d : Draw) : List PbUnit :=
  List.zipWith (fun cid hand => ⟨cid, hand.2, hand.1⟩) d.comp.units d.hands

/-- The strength of a player; the lower, the better. -/
def Draw.strength (md5 : GoString → ℕ) (td : Tables) (tier : GoString) (d : Draw) : ℚ :=
  placementBias md5 td d.comp.units d.augments tier d.comp.id + d.gauss

/-- A player at a placement. -/
def Draw.player (d : Draw) (placement : ℕ) : PbPlayerResult :=
  { puuid := d.puuid
    placement := Int32.ofNat placement
    units := d.board
    augments := d.augments
    roundsPlayed := d.roundsPlayed }

/-- The players, strongest first; the sort is stable. -/
def ranked (md5 : GoString → ℕ) (td : Tables) (tier : GoString) (draws : Fin 8 → Draw) :
    List Draw :=
  (List.ofFn draws).insertionSort fun a b => a.strength md5 td tier ≤ b.strength md5 td tier

/-- `generate_match`, with the uuid in its id and the time in
milliseconds. -/
def generateMatch (md5 : GoString → ℕ) (td : Tables) (region tier patch nodeId : GoString)
    (seq : Int64) (draws : Fin 8 → Draw) (uuid : GoString) (now : Int64) : PbMatchEvent :=
  { matchId := region ++ ascii "_" ++ uuid
    region := region
    patch := patch
    tier := tier
    players := ((ranked md5 td tier draws).zipIdx 1).map fun p => p.1.player p.2
    clock := nodeClock nodeId seq
    timestamp := now }

/-! ## Matches of Riot -/

/-- A unit of a participant; `none` inside an option is `null`. -/
structure RawUnit where
  characterId : Option GoString
  tier : Option ℤ
  itemNames : Option (Option (List GoString))
  items : Option (Option (List GoString))

/-- A participant. -/
structure RawParticipant where
  puuid : Option GoString
  placement : Option ℤ
  units : Option (List RawUnit)
  augments : Option (Option (List GoString))
  lastRound : Option ℤ

/-- `info`. -/
structure RawInfo where
  gameVersion : Option (List Char)
  participants : Option (List RawParticipant)
  gameDatetime : Option ℤ

/-- A match that is not empty. -/
structure RawMatch where
  matchId : Option GoString
  info : Option RawInfo

/-- `DEFAULT_PATCH`. -/
def defaultPatch : GoString := ascii "17.3"

/-- The patch that a token names, if it has a dot with digits before it. -/
def tokenPatch (isDigit : Char → Bool) (tok : List Char) : Option GoString :=
  match tok.splitOn '.' with
  | major :: minor :: _ =>
    if major ≠ [] ∧ major.all isDigit then some (Text.utf8 (major ++ ['.'] ++ minor)) else none
  | _ => none

/-- The loop over the tokens of `game_version`. -/
def versionPatch (isDigit : Char → Bool) (gv : List Char) : GoString :=
  ((Text.split (Text.without "Version".toList 0 gv)).findSome? (tokenPatch isDigit)).getD
    defaultPatch

/-- A unit as `normalize` takes it. -/
def RawUnit.normalize (u : RawUnit) : Option PbUnit := do
  let tier ← int32 (u.tier.getD 1)
  return ⟨u.characterId.getD [], tier, (u.itemNames.getD (u.items.getD none)).getD []⟩

/-- A participant. -/
def RawParticipant.normalize (p : RawParticipant) : Option PbPlayerResult := do
  let units ← (p.units.getD []).mapM RawUnit.normalize
  let placement ← int32 (p.placement.getD 8)
  let roundsPlayed ← int32 (p.lastRound.getD 0)
  return ⟨p.puuid.getD [], placement, units, (p.augments.getD none).getD [], roundsPlayed⟩

/-- `normalize` of a match that is not empty; `now` is the time in
milliseconds. The outer option is `none` where it raises. -/
def normalize (isDigit : Char → Bool) (now : ℤ) (region tier nodeId : GoString) (seq : ℤ)
    (raw : RawMatch) : Option (Option PbMatchEvent) :=
  match raw.info with
  | none => some none
  | some info => do
    let players ← (info.participants.getD []).mapM RawParticipant.normalize
    if players = [] then return none
    let seq ← int64 seq
    let timestamp ← int64 (info.gameDatetime.getD now)
    return some
      { matchId := raw.matchId.getD []
        region := region
        patch := versionPatch isDigit (info.gameVersion.getD [])
        tier := tier
        players := players
        clock := nodeClock nodeId seq
        timestamp := timestamp }

end Ingestion

end TftAnalytics

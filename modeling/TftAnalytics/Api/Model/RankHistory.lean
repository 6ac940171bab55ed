import TftAnalytics.Common.Bytes
import TftAnalytics.Common.Dict
import Mathlib.Data.List.Basic
/-!
# API — rank history

`record_rank` of `riot.py`: it loads the store, puts today's snapshot of a
player's rank into the history of the player, and saves the store. The
store is a dictionary in a file; a file that cannot be read counts as an
empty one. A file that is written reads back as it was, and a date is what
`isoformat` makes of it.
-/

namespace TftAnalytics

namespace Api

/-- `_LADDER_T`. -/
def ladderTiers : List GoString :=
  [ascii "IRON", ascii "BRONZE", ascii "SILVER", ascii "GOLD", ascii "PLATINUM", ascii "EMERALD",
    ascii "DIAMOND"]

/-- `_DIV_V`. -/
def divisionValues : List (GoString × ℤ) :=
  [(ascii "IV", 0), (ascii "III", 1), (ascii "II", 2), (ascii "I", 3), (ascii "", 0)]

/-- `_APEX_BASE`. -/
def apexBase : List (GoString × ℤ) :=
  [(ascii "MASTER", 2800), (ascii "GRANDMASTER", 3300), (ascii "CHALLENGER", 3800)]

/-- `rank_value`. -/
def rankValue (tier division : GoString) (lp : ℤ) : ℤ :=
  match apexBase.lookup tier with
  | some base => base + lp
  | none =>
    if tier ∈ ladderTiers then
      ladderTiers.idxOf tier * 400 + held 0 divisionValues division * 100 + lp
    else 0

/-- The rank of a player, with the keys it may lack. -/
structure Rank where
  tier : Option GoString
  division : Option GoString
  lp : ℤ
  label : GoString
  wins : Option ℤ
  losses : Option ℤ

/-- The tier of a player without a rank. -/
def unranked : GoString := ascii "UNRANKED"

/-- A snapshot of the history, taken on a date. -/
structure RankSnapshot (D : Type) where
  date : D
  tier : GoString
  division : GoString
  lp : ℤ
  rating : ℤ
  wins : ℤ
  losses : ℤ
  label : GoString

/-- The store: the histories, by player. -/
abbrev RankStore (D : Type) := List (GoString × List (RankSnapshot D))

variable {D : Type}

/-- `_load_store`. -/
def loadStore (file : Option (RankStore D)) : RankStore D := file.getD []

/-- `_save_store`, which may fail and then leaves the file. -/
def saveStore (saved : Bool) (store : RankStore D) (file : Option (RankStore D)) :
    Option (RankStore D) :=
  if saved then some store else file

/-- `sig`. -/
def RankSnapshot.sig (s : RankSnapshot D) : GoString × GoString × ℤ := (s.tier, s.division, s.lp)

/-- `snap`, unless there is no rank. -/
def Rank.snap (today : D) (rank : Rank) : Option (RankSnapshot D) :=
  match rank.tier with
  | none => none
  | some tier =>
    let division := rank.division.getD []
    if tier = unranked then none
    else
      some
        { date := today, tier, division, lp := rank.lp, rating := rankValue tier division rank.lp
          wins := rank.wins.getD 0, losses := rank.losses.getD 0, label := rank.label }

/-- How many snapshots are kept. -/
def historyLength : ℕ := 120

variable [DecidableEq D]

/-- The history with today's snapshot: it replaces the last one on the same
day, and is left out where the rank has not changed. -/
def revise (hist : List (RankSnapshot D)) (snap : RankSnapshot D) : List (RankSnapshot D) :=
  match hist.getLast? with
  | none => hist ++ [snap]
  | some last =>
    if last.date = snap.date then hist.dropLast ++ [snap]
    else if last.sig ≠ snap.sig then hist ++ [snap]
    else hist

/-- `hist[-120:]`. -/
def recent (hist : List (RankSnapshot D)) : List (RankSnapshot D) :=
  hist.drop (hist.length - historyLength)

/-- A call of `record_rank` on a date, and whether its save succeeds. -/
structure RankCall (D : Type) where
  puuid : GoString
  today : D
  rank : Option Rank
  saved : Bool

namespace RankCall

/-- The snapshot of a call. -/
def snap (c : RankCall D) : Option (RankSnapshot D) := c.rank.bind (·.snap c.today)

/-- What a call makes of the store it has loaded, unless it returns at
once, and the history it returns. -/
def modify (c : RankCall D) (store : RankStore D) :
    Option (RankStore D) × List (RankSnapshot D) :=
  let hist := held [] store c.puuid
  match c.snap with
  | none => (none, hist)
  | some snap =>
    let hist := recent (revise hist snap)
    (some (upsert [] (fun _ => hist) c.puuid store), hist)

/-- `record_rank`: the file after it, and the history it returns. -/
def recordRank (c : RankCall D) (file : Option (RankStore D)) :
    Option (RankStore D) × List (RankSnapshot D) :=
  match c.modify (loadStore file) with
  | (none, hist) => (file, hist)
  | (some store, hist) => (saveStore c.saved store file, hist)

end RankCall

end Api

end TftAnalytics

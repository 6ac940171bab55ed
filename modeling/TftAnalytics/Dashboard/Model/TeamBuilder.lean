import TftAnalytics.Common.Bytes
import TftAnalytics.Common.Dict
import TftAnalytics.Common.TopSum
import Mathlib.Algebra.Order.Field.Rat
import Mathlib.Analysis.SpecialFunctions.Pow.Real
import Mathlib.Data.List.ReduceOption
/-!
# Dashboard — the team builder

`TeamBuilder.jsx`: two boards that are edited by dragging and clicking, and
the predictor, which gives each board a score and the two scores a chance to
win. Numbers are exact. The augments of the page do not enter the score and
are left out, and so is what is only shown.
-/

namespace TftAnalytics

namespace Dashboard

/-! ## The predictor -/

/-- The star level of a unit: 1, 2 or 3. -/
inductive Star where
  | one
  | two
  | three
  deriving DecidableEq

/-- `(star % 3) + 1`. -/
def Star.next : Star → Star
  | .one => .two
  | .two => .three
  | .three => .one

/-- An item that is dragged. -/
structure BuildItem where
  id : GoString
  kind : GoString
  deriving DecidableEq

/-- A champion that is dragged from the roster. -/
structure RosterChampion where
  id : GoString
  cost : ℕ
  traits : List GoString
  deriving DecidableEq

/-- A unit in a cell. -/
structure Fielded where
  champ : RosterChampion
  items : List BuildItem
  star : Star
  deriving DecidableEq

/-- The stats of a champion or an item, each of which may be missing. -/
structure MetaStat where
  winRate : Option ℚ
  avgPlacement : Option ℚ
  playRate : Option ℚ

/-- What the page has loaded: the roster, the breakpoints of the traits, and
the stats of champions and of items once they are there. -/
structure BuilderData where
  champions : List RosterChampion
  breakpoints : GoString → List ℚ
  stats : Option ((GoString → Option MetaStat) × (GoString → Option MetaStat))

/-- `champMeta`. -/
def BuilderData.champMeta (d : BuilderData) : GoString → Option MetaStat :=
  (d.stats.map (·.1)).getD fun _ => none

/-- `itemMeta`. -/
def BuilderData.itemMeta (d : BuilderData) : GoString → Option MetaStat :=
  (d.stats.map (·.2)).getD fun _ => none

/-- `COST_BASE[cost] || cost`. -/
def costBase : ℕ → ℚ
  | 2 => 16 / 10
  | 3 => 25 / 10
  | 4 => 4
  | 5 => 6
  | cost => cost

/-- `STAR_POWER`. -/
def starPower : Star → ℚ
  | .one => 1
  | .two => 25 / 10
  | .three => 6

/-- `ITEM_POWER[kind] ?? 0.3`. -/
def itemPower (kind : GoString) : ℚ :=
  if kind = ascii "component" then 12 / 100
  else if kind = ascii "completed" then 35 / 100
  else if kind = ascii "radiant" then 55 / 100
  else if kind = ascii "emblem" then 25 / 100
  else if kind = ascii "artifact" then 4 / 10
  else 3 / 10

/-- `BOARD_CAP`. -/
def boardCap : ℕ := 10

/-- `FRONTLINE`. -/
def frontline : List GoString :=
  [ascii "Bastion", ascii "Vanguard", ascii "Brawler", ascii "Sentinel", ascii "Knight",
    ascii "Bulwark"]

/-- `BACKLINE`. -/
def backline : List GoString :=
  [ascii "Sniper", ascii "Sorcerer", ascii "Gunner", ascii "Rogue", ascii "Assassin",
    ascii "Marauder", ascii "Challenger", ascii "Eradicator"]

/-- `carryMult`. -/
def carryMult (cost : ℕ) : Star → ℚ
  | .three =>
    if 5 ≤ cost then 6
    else if cost = 4 then 32 / 10
    else if cost = 3 then 2
    else if cost = 2 then 15 / 10
    else 13 / 10
  | .two => if 5 ≤ cost then 15 / 10 else if cost = 4 then 12 / 10 else 1
  | .one => 1

/-- `clamp`. -/
def clamp (x lo hi : ℚ) : ℚ := max lo (min hi x)

/-- `metaStrength`. -/
def metaStrength : Option MetaStat → ℚ
  | none => 1
  | some s =>
    let m := 1 + s.avgPlacement.elim 0 fun place => (45 / 10 - place) * (12 / 100)
    let m := m + s.winRate.elim 0 fun wr => (wr - 5 / 10) * (6 / 10)
    let m := m + s.playRate.elim 0 fun play =>
      clamp ((play - 5 / 100) * (3 / 10)) (-(5 / 100)) (1 / 10)
    clamp m (6 / 10) (16 / 10)

/-- `c.cost || 1`. -/
def RosterChampion.costOr (c : RosterChampion) : ℕ := if c.cost = 0 then 1 else c.cost

/-- The factor that the items of a unit make. -/
def itemFactor (itemMeta : GoString → Option MetaStat) (cost : ℕ) (items : List BuildItem) : ℚ :=
  items.foldl
    (fun f it =>
      let eff := itemPower it.kind * metaStrength (itemMeta it.id)
      f + (if 4 ≤ cost then 115 / 100 else 1) * eff)
    1

/-- What a unit contributes. -/
def contribution (d : BuilderData) (c : Fielded) : ℚ :=
  costBase c.champ.costOr * starPower c.star * metaStrength (d.champMeta c.champ.id)
    * itemFactor d.itemMeta c.champ.costOr c.items

/-- The accumulators of the loop of `scoreBoard`. -/
structure Tally where
  front : ℕ
  back : ℕ
  carry : ℚ
  traitCount : List (GoString × ℕ)
  seen : List GoString
  contributions : List ℚ

/-- The loop body of `scoreBoard`. -/
def Tally.add (d : BuilderData) (t : Tally) (c : Fielded) : Tally :=
  { front := if c.champ.traits.any (· ∈ frontline) then t.front + 1 else t.front
    back := if c.champ.traits.any (· ∈ backline) then t.back + 1 else t.back
    carry := max t.carry (carryMult c.champ.costOr c.star)
    traitCount :=
      if c.champ.id ∈ t.seen then t.traitCount
      else c.champ.traits.foldl (fun counts name => upsert 0 (· + 1) name counts) t.traitCount
    seen := if c.champ.id ∈ t.seen then t.seen else t.seen ++ [c.champ.id]
    contributions := t.contributions ++ [contribution d c] }

/-- The loop. -/
def tally (d : BuilderData) (placed : List Fielded) : Tally :=
  placed.foldl (Tally.add d) ⟨0, 0, 1, [], [], []⟩

/-- `traitStrength`: for each trait the mean strength of the champions that
have it. -/
def traitStrength (d : BuilderData) : List (GoString × ℚ) :=
  match d.stats with
  | none => []
  | some (champMeta, _) =>
    let acc := d.champions.foldl
      (fun acc c => c.traits.foldl
        (fun acc name => upsert ((0 : ℚ), 0)
          (fun e : ℚ × ℕ => (e.1 + metaStrength (champMeta c.id), e.2 + 1)) name acc)
        acc)
      []
    acc.map fun e => (e.1, e.2.1 / e.2.2)

/-- What `scoreBoard` returns. -/
structure Score where
  total : ℚ
  units : ℕ
  unitPow : ℚ
  carry : ℚ
  traitMult : ℚ
  balanceMult : ℚ

/-- `traitBoost`. -/
def traitBoost (d : BuilderData) (traitCount : List (GoString × ℕ)) : ℚ :=
  traitCount.foldl
    (fun boost e =>
      let tiers := (d.breakpoints e.1).countP fun b => decide (b ≤ e.2)
      boost + tiers * (8 / 100) * held 1 (traitStrength d) e.1)
    0

/-- `scoreBoard`, of the units placed. -/
def scoreBoard (d : BuilderData) (placed : List Fielded) : Score :=
  if placed = [] then ⟨0, 0, 0, 1, 1, 1⟩
  else
    let t := tally d placed
    let unitPow := topSum boardCap t.contributions
    let traitMult := 1 + traitBoost d t.traitCount
    let balanceMult := 1 + min (15 / 100) (min t.front t.back * (4 / 100) : ℚ)
    ⟨unitPow * traitMult * balanceMult * t.carry, placed.length, unitPow, t.carry, traitMult,
      balanceMult⟩

/-- `COMBAT_EXP`. -/
def combatExp : ℚ := 26 / 10

/-- `Math.pow(s, COMBAT_EXP)`. -/
noncomputable def combat (s : ℚ) : ℝ := (s : ℝ) ^ (combatExp : ℝ)

/-- The chance to win, in percent. -/
noncomputable def winPct (sy sf : ℚ) : ℝ :=
  if sy ≤ 0 ∧ sf ≤ 0 then 50
  else if sf ≤ 0 then 100
  else if sy ≤ 0 then 0
  else 100 * combat sy / (combat sy + combat sf)

/-! ## The editor -/

/-- A side of the arena. -/
inductive Side where
  | player
  | enemy
  deriving DecidableEq

/-- A cell of the two boards; `N` is 28. -/
abbrev BuilderCell := Side × Fin 28

/-- `MAX_ITEMS`. -/
def maxItems : ℕ := 3

/-- The two boards. -/
abbrev Boards := BuilderCell → Option Fielded

namespace Boards

/-- Empty boards. -/
def clear : Boards := fun _ => none

/-- What the user does: a champion of the roster, a unit of a cell or an
item is dropped on a cell; a unit is clicked, or clicked with the right
button; an item of a unit is clicked; both boards are cleared. -/
inductive Gesture where
  | dropChampion (cell : BuilderCell) (champ : RosterChampion)
  | dropUnit (cell origin : BuilderCell)
  | dropItem (cell : BuilderCell) (item : BuildItem)
  | click (cell : BuilderCell)
  | removeCell (cell : BuilderCell)
  | removeItem (cell : BuilderCell) (k : ℕ)
  | clearAll

/-- `setCell`. -/
def setCell (b : Boards) (cell : BuilderCell) (f : Option Fielded → Option Fielded) : Boards :=
  Function.update b cell (f (b cell))

/-- One gesture. -/
def step (b : Boards) : Gesture → Boards
  | .dropChampion cell champ => b.setCell cell fun _ => some ⟨champ, [], .one⟩
  | .dropUnit cell origin =>
    -- the cells swap what they hold
    Function.update (Function.update b cell (b origin)) origin (b cell)
  | .dropItem cell item =>
    b.setCell cell fun c => c.map fun c =>
      if maxItems ≤ c.items.length then c else { c with items := c.items ++ [item] }
  | .click cell => b.setCell cell fun c => c.map fun c => { c with star := c.star.next }
  | .removeCell cell => b.setCell cell fun _ => none
  | .removeItem cell k =>
    b.setCell cell fun c => c.map fun c => { c with items := c.items.eraseIdx k }
  | .clearAll => clear

/-- What the user has made of empty boards. -/
def run (gestures : List Gesture) : Boards := gestures.foldl step clear

/-- `boards[side].filter(Boolean)`. -/
def placed (b : Boards) (side : Side) : List Fielded :=
  (List.ofFn fun i => b (side, i)).reduceOption

/-- `prediction.pct`; `Math.round` rounds halves up. -/
noncomputable def prediction (d : BuilderData) (b : Boards) : ℤ :=
  ⌊winPct (scoreBoard d (b.placed .player)).total (scoreBoard d (b.placed .enemy)).total
    + ((1 / 2 : ℚ) : ℝ)⌋

end Boards

end Dashboard

end TftAnalytics

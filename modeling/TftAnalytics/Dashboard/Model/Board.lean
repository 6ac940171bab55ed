import TftAnalytics.Common.Bytes
import TftAnalytics.Common.Dict
import Mathlib.Data.Rat.Floor
import Mathlib.Data.List.Infix
/-!
# Dashboard — the board of a guide

`buildCompBoard` of `meta.js`, with `unitLine`, `bestItemsForChamps` and
`prettyName`. Strings are their bytes, and numbers are exact. `sort` is
stable, and a regular expression that names words asks whether one of them
occurs.
-/

namespace TftAnalytics

namespace Dashboard

/-! ## Names -/

/-- A word occurs in a string. -/
def occurs (word : String) (s : GoString) : Bool := decide (ascii word <:+: s)

/-- `s` without a prefix, where it has it. -/
def strip (word : String) (s : GoString) : GoString :=
  if ascii word <+: s then s.drop (ascii word).length else s

/-- The first `replace` of `prettyName`: `TFT`, digits and an underscore at
the front, and one of two words after them. -/
def stripSet (s : GoString) : GoString :=
  let rest := (s.drop 3).dropWhile fun b => 48 ≤ b && b ≤ 57
  if ascii "TFT" <+: s ∧ ascii "_" <+: rest then
    let name := rest.drop 1
    if ascii "Item_" <+: name then strip "Item_" name else strip "Augment_" name
  else s

/-- The last `replace`: a space between a small letter and a capital. -/
def spaceWords : GoString → GoString
  | a :: b :: s =>
    if (97 ≤ a && a ≤ 122) && (65 ≤ b && b ≤ 90) then a :: 32 :: spaceWords (b :: s)
    else a :: spaceWords (b :: s)
  | s => s

/-- `prettyName`. -/
def prettyName (id : GoString) : GoString := spaceWords (strip "TFT_Item_" (stripSet id))

/-! ## Items -/

/-- A cell of the heatmap. -/
structure HeatCell where
  champion : GoString
  item : GoString
  winRate : ℚ
  sampleSize : ℚ

/-- What the board reads of the `ctx` of a guide: the cells, and the icons of
the items. -/
structure GuideContext where
  cells : List HeatCell
  itemIcon : List (GoString × GoString)

/-- A recommended item. -/
structure BestItem where
  id : GoString
  name : GoString
  icon : Option GoString
  win : ℚ
  n : ℚ

/-- `bestItemsForChamps`: the items of the champions by average win rate. -/
def bestItemsForChamps (champIds : List GoString) (ctx : GuideContext) : List BestItem :=
  let cells := ctx.cells.filter fun c => c.champion ∈ champIds
  let agg := cells.foldl (fun agg c => upsert ((0 : ℚ), (0 : ℚ))
    (fun e => (e.1 + c.winRate * c.sampleSize, e.2 + c.sampleSize)) c.item agg) []
  let items := agg.map fun e =>
    { id := e.1, name := prettyName e.1, icon := ctx.itemIcon.lookup e.1
      win := e.2.1 / e.2.2, n := e.2.2 : BestItem }
  (items.insertionSort fun a b => b.win ≤ a.win).take 6

/-! ## The board -/

/-- A champion of the roster. -/
structure Champion where
  id : GoString
  icon : GoString
  cost : ℤ
  role : Option GoString
  range : Option ℤ

/-- The two lines of `unitLine`. -/
inductive Line where
  | front
  | back
  deriving DecidableEq

/-- `unitLine`. -/
def unitLine (c : Champion) : Line :=
  let r := c.role.getD []
  if occurs "Carry" r || occurs "Caster" r || occurs "Reaper" r then .back
  else if occurs "Tank" r || occurs "Fighter" r then .front
  else
    -- `c.range || 1`
    let range := (c.range.filter (· ≠ 0)).getD 1
    if range ≥ 2 then .back else .front

/-- A unit on the board. -/
structure PlacedUnit where
  id : GoString
  name : GoString
  icon : GoString
  cost : ℤ
  carry : Bool
  star : ℕ
  row : ℤ
  col : ℤ
  items : List BestItem

/-- What `buildCompBoard` returns. -/
structure Board where
  rows : ℕ
  cols : ℕ
  placed : List PlacedUnit

/-- `COLS`, `FRONT_ROW` and `BACK_ROW`. -/
def boardCols : ℕ := 7
def frontRow : ℤ := 0
def backRow : ℤ := 3

/-- `Math.round`: halves are rounded up. -/
def jsRound (x : ℚ) : ℤ := ⌊x + 1 / 2⌋

/-- A string that counts as true. -/
def truthy (s : Option GoString) : Option GoString := s.filter (· ≠ [])

/-- The units by descending cost. -/
def byCost (units : List Champion) : List Champion :=
  units.insertionSort fun a b => b.cost ≤ a.cost

/-- The unit is a tank by its role. -/
def isTank (c : Champion) : Bool := occurs "Tank" (c.role.getD [])

/-- Tanks come first, and then the higher cost. -/
def tankBefore (a b : Champion) : Prop :=
  (isTank a = true ∧ isTank b = false) ∨ isTank a = isTank b ∧ b.cost ≤ a.cost

instance : DecidableRel tankBefore := fun _ _ => inferInstanceAs (Decidable (_ ∨ _))

/-- Who carries: what decides over the stars and the items of a board. -/
structure Loadout where
  carry : Option GoString
  tank : Option Champion
  carryItems : List BestItem
  tankItems : List BestItem

/-- `mkUnit`. -/
def mkUnit (l : Loadout) (c : Champion) (row col : ℤ) : PlacedUnit :=
  let carry := l.carry = some c.id
  { id := c.id, name := prettyName c.id, icon := c.icon, cost := c.cost, carry, row, col
    star := if carry then (if c.cost ≤ 3 then 3 else 2) else 1
    items := if carry then l.carryItems
      else if l.tank.map (·.id) = some c.id then l.tankItems else [] }

/-- The columns of `placeCentered`. -/
def centeredCols (n : ℕ) : List ℤ :=
  let start := max 0 (((boardCols : ℤ) - n) / 2)
  (List.range (min n boardCols)).map fun i : ℕ => start + i

/-- The columns of `placeCorners`. -/
def cornerCols (n : ℕ) : List ℤ :=
  if n = 0 then []
  else if n = 1 then [0]
  else (List.range n).map fun i : ℕ => jsRound (i * (boardCols - 1) / (n - 1))

/-- `placeCentered`. -/
def placeCentered (l : Loadout) (arr : List Champion) (row : ℤ) : List PlacedUnit :=
  ((arr.take boardCols).zip (centeredCols arr.length)).map fun c => mkUnit l c.1 row c.2

/-- `placeCorners`. -/
def placeCorners (l : Loadout) (arr : List Champion) (row : ℤ) : List PlacedUnit :=
  let a := arr.take boardCols
  (a.zip (cornerCols a.length)).map fun c => mkUnit l c.1 row c.2

/-- The units of a line, by descending cost. -/
def lineUnits (line : Line) (units : List Champion) : List Champion :=
  byCost (units.filter fun c => unitLine c = line)

/-- The main carry and the main tank of `buildCompBoard`, and their items. -/
def loadout (units : List Champion) (carryId : Option GoString) (ctx : GuideContext) : Loadout :=
  let back := lineUnits .back units
  let front := lineUnits .front units
  let carry := ((truthy carryId).or (truthy (back.head?.map (·.id)))).or (units.head?.map (·.id))
  let tank := (front.insertionSort tankBefore).head?
  { carry, tank
    carryItems := (bestItemsForChamps (truthy carry).toList ctx).take 3
    tankItems := (tank.map fun t => (bestItemsForChamps [t.id] ctx).take 3).getD [] }

/-- `buildCompBoard`. -/
def buildCompBoard (units : List Champion) (carryId : Option GoString) (ctx : GuideContext) :
    Board :=
  let back := lineUnits .back units
  let front := lineUnits .front units
  let l := loadout units carryId ctx
  { rows := 4
    cols := boardCols
    placed := placeCentered l (front.take boardCols) frontRow
      ++ placeCentered l (front.drop boardCols) (frontRow + 1)
      ++ placeCorners l (back.take boardCols) backRow
      ++ placeCorners l (back.drop boardCols) (backRow - 1) }

/-- What `CompBoard` shows at a cell. -/
def Board.at (b : Board) (row col : ℤ) : Option PlacedUnit :=
  b.placed.find? fun p => p.row = row ∧ p.col = col

end Dashboard

end TftAnalytics

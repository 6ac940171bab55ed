import TftAnalytics.Dashboard.Model.Board
import TftAnalytics.Common.Buckets
import Mathlib.Data.List.Nodup
import Mathlib.Tactic.Linarith
/-!
# Dashboard — no two units on one cell

A board is four lanes: a row, the units of the row, and a column for each.
Centred columns are consecutive. Columns spread to the corners are at least
one apart before they are rounded, as a row has no more than seven.
-/

namespace TftAnalytics

namespace Dashboard

/-! ## Columns -/

/-- Columns for `n` units of a row. -/
structure Columns (n : ℕ) (cols : List ℤ) : Prop where
  length_eq : cols.length = n
  nodup : cols.Nodup
  mem : ∀ c ∈ cols, 0 ≤ c ∧ c < boardCols

theorem columns_centeredCols {n : ℕ} (hn : n ≤ boardCols) : Columns n (centeredCols n) := by
  have hmin : min n boardCols = n := min_eq_left hn
  refine ⟨?_, ?_, fun c hc => ?_⟩
  · unfold centeredCols
    rw [List.length_map, List.length_range, hmin]
  · refine List.Nodup.map (fun i j hij => ?_) List.nodup_range
    have heq : (i : ℤ) = j := add_left_cancel hij
    exact_mod_cast heq
  · obtain ⟨i, hi, rfl⟩ := List.mem_map.mp hc
    rw [hmin, List.mem_range] at hi
    unfold boardCols at hn ⊢
    omega

/-- Numbers that are one apart are rounded to different ones. -/
theorem jsRound_lt_jsRound {x y : ℚ} (h : x + 1 ≤ y) : jsRound x < jsRound y := by
  have hfloor : ⌊x + 1 / 2⌋ + 1 = ⌊x + 1 + 1 / 2⌋ := by
    rw [← Int.floor_add_one]
    ring_nf
  have hmono : ⌊x + 1 + 1 / 2⌋ ≤ ⌊y + 1 / 2⌋ := Int.floor_mono (by linarith)
  unfold jsRound
  omega

/-- A number between two whole ones is rounded to one between them. -/
theorem jsRound_mem {x : ℚ} {m : ℤ} (h0 : 0 ≤ x) (hm : x ≤ m) :
    0 ≤ jsRound x ∧ jsRound x ≤ m := by
  refine ⟨Int.floor_nonneg.mpr (by linarith), Int.lt_add_one_iff.mp (Int.floor_lt.mpr ?_)⟩
  push_cast
  linarith

theorem gaps_pos {n : ℕ} (h2 : 2 ≤ n) : (0 : ℚ) < (n : ℚ) - 1 := by
  have : (2 : ℚ) ≤ n := by exact_mod_cast h2
  linarith

/-- Before they are rounded, the columns of `placeCorners` are on the board. -/
theorem corner_mem {n i : ℕ} (h2 : 2 ≤ n) (hi : i < n) :
    0 ≤ (i : ℚ) * (boardCols - 1) / (n - 1) ∧ (i : ℚ) * (boardCols - 1) / (n - 1) ≤ (6 : ℤ) := by
  have hpos := gaps_pos h2
  have hle : (i : ℚ) + 1 ≤ n := by exact_mod_cast hi
  unfold boardCols
  refine ⟨by positivity, ?_⟩
  rw [div_le_iff₀ hpos]
  push_cast
  linarith

/-- And one apart at least. -/
theorem corner_step {n i j : ℕ} (h2 : 2 ≤ n) (hn : n ≤ boardCols) (hij : i < j) :
    (i : ℚ) * (boardCols - 1) / (n - 1) + 1 ≤ j * (boardCols - 1) / (n - 1) := by
  have hpos := gaps_pos h2
  have hcols : (n : ℚ) - 1 ≤ (boardCols : ℚ) - 1 := by
    have : (n : ℚ) ≤ boardCols := by exact_mod_cast hn
    linarith
  have hstep : (i : ℚ) + 1 ≤ j := by exact_mod_cast hij
  rw [div_add_one hpos.ne']
  gcongr
  nlinarith

theorem columns_cornerCols {n : ℕ} (hn : n ≤ boardCols) : Columns n (cornerCols n) := by
  unfold cornerCols
  split_ifs with h0 h1
  · subst h0
    exact ⟨rfl, List.nodup_nil, by simp⟩
  · subst h1
    exact ⟨rfl, List.nodup_singleton 0, by simp [boardCols]⟩
  · have h2 : 2 ≤ n := by omega
    refine ⟨by simp, ?_, fun c hc => ?_⟩
    · have hlt : (List.range n).Pairwise (· < ·) := List.pairwise_lt_range
      exact hlt.map _ fun i j hij => (jsRound_lt_jsRound (corner_step h2 hn hij)).ne
    · obtain ⟨i, hi, rfl⟩ := List.mem_map.mp hc
      rw [List.mem_range] at hi
      obtain ⟨hlo, hhi⟩ := corner_mem h2 hi
      have hmem := jsRound_mem hlo hhi
      exact ⟨hmem.1, Int.lt_of_le_sub_one hmem.2⟩

-- halves are rounded up, so the gaps of five units are uneven
example : cornerCols 5 = [0, 2, 3, 5, 6] := by decide +kernel

/-! ## Lanes -/

/-- A row of the board, its units, and their columns. -/
structure Lane where
  row : ℤ
  units : List Champion
  cols : List ℤ

/-- The units of a lane, placed. -/
def Lane.placed (l : Loadout) (lane : Lane) : List PlacedUnit :=
  (lane.units.zip lane.cols).map fun c => mkUnit l c.1 lane.row c.2

/-- The four lanes of a board. -/
def lanes (units : List Champion) : List Lane :=
  let back := lineUnits .back units
  let front := lineUnits .front units
  [⟨frontRow, front.take boardCols, centeredCols (front.take boardCols).length⟩,
    ⟨frontRow + 1, front.drop boardCols, centeredCols (front.drop boardCols).length⟩,
    ⟨backRow, back.take boardCols, cornerCols (back.take boardCols).length⟩,
    ⟨backRow - 1, back.drop boardCols, cornerCols (back.drop boardCols).length⟩]

/-- The cell of a unit. -/
def PlacedUnit.cell (p : PlacedUnit) : ℤ × ℤ := (p.row, p.col)

/-- What does not depend on the cell of a unit, nor on the others. -/
def PlacedUnit.card (p : PlacedUnit) : GoString × GoString × GoString × ℤ :=
  (p.id, p.name, p.icon, p.cost)

/-- The card of a champion. -/
def Champion.card (c : Champion) : GoString × GoString × GoString × ℤ :=
  (c.id, prettyName c.id, c.icon, c.cost)

theorem map_card_placed (l : Loadout) {lane : Lane}
    (h : Columns lane.units.length lane.cols) :
    (lane.placed l).map PlacedUnit.card = lane.units.map Champion.card := by
  have hfst : (lane.units.zip lane.cols).map Prod.fst = lane.units :=
    List.map_fst_zip h.length_eq.ge
  conv_rhs => rw [← hfst]
  unfold Lane.placed
  rw [List.map_map, List.map_map]
  rfl

theorem map_cell_placed (l : Loadout) {lane : Lane}
    (h : Columns lane.units.length lane.cols) :
    (lane.placed l).map PlacedUnit.cell = lane.cols.map fun c => (lane.row, c) := by
  have hsnd : (lane.units.zip lane.cols).map Prod.snd = lane.cols :=
    List.map_snd_zip h.length_eq.le
  conv_rhs => rw [← hsnd]
  unfold Lane.placed
  rw [List.map_map, List.map_map]
  rfl

/-! ## The board -/

theorem placeCentered_eq (l : Loadout) {arr : List Champion} (h : arr.length ≤ boardCols)
    (row : ℤ) :
    placeCentered l arr row
      = Lane.placed l { row, units := arr, cols := centeredCols arr.length } := by
  unfold placeCentered Lane.placed
  rw [List.take_of_length_le h]

theorem placeCorners_eq (l : Loadout) {arr : List Champion} (h : arr.length ≤ boardCols)
    (row : ℤ) :
    placeCorners l arr row
      = Lane.placed l { row, units := arr, cols := cornerCols arr.length } := by
  unfold placeCorners Lane.placed
  rw [List.take_of_length_le h]

theorem perm_lineUnits (line : Line) (units : List Champion) :
    (lineUnits line units).Perm (units.filter fun c => unitLine c = line) :=
  List.perm_insertionSort _ _

/-- A line fits on two rows. -/
def TwoRows (line : Line) (units : List Champion) : Prop :=
  (units.filter fun c => unitLine c = line).length ≤ 14

theorem length_take_lineUnits (line : Line) (units : List Champion) :
    ((lineUnits line units).take boardCols).length ≤ boardCols :=
  List.length_take_le _ _

theorem TwoRows.length_drop {line : Line} {units : List Champion} (h : TwoRows line units) :
    ((lineUnits line units).drop boardCols).length ≤ boardCols := by
  have hlen := (perm_lineUnits line units).length_eq
  rw [List.length_drop, hlen]
  unfold TwoRows at h
  unfold boardCols
  omega

section Board

variable {units : List Champion} (hfront : TwoRows .front units) (hback : TwoRows .back units)
include hfront hback

theorem placed_buildCompBoard (carryId : Option GoString) (ctx : GuideContext) :
    (buildCompBoard units carryId ctx).placed
      = (lanes units).flatMap (Lane.placed (loadout units carryId ctx)) := by
  unfold buildCompBoard lanes
  dsimp only
  rw [placeCentered_eq _ (length_take_lineUnits ..), placeCentered_eq _ hfront.length_drop,
    placeCorners_eq _ (length_take_lineUnits ..), placeCorners_eq _ hback.length_drop]
  simp [List.append_assoc]

theorem columns_lanes : ∀ lane ∈ lanes units, Columns lane.units.length lane.cols := by
  simp only [lanes, List.forall_mem_cons, List.not_mem_nil, false_imp_iff, implies_true, and_true]
  exact ⟨columns_centeredCols (length_take_lineUnits ..), columns_centeredCols hfront.length_drop,
    columns_cornerCols (length_take_lineUnits ..), columns_cornerCols hback.length_drop⟩

end Board

theorem row_lanes (units : List Champion) : (lanes units).map Lane.row = [0, 1, 3, 2] := rfl

/-- **No unit is dropped.** The lanes hold the front line and the back line. -/
theorem units_lanes (units : List Champion) : ((lanes units).flatMap Lane.units).Perm units := by
  have hlines : (lanes units).flatMap Lane.units
      = lineUnits .front units ++ lineUnits .back units := by
    simp [lanes, ← List.append_assoc]
  have hback : (units.filter fun c => unitLine c = .back)
      = units.filter fun c => !decide (unitLine c = .front) := by
    refine List.filter_congr fun c _ => ?_
    cases unitLine c <;> rfl
  rw [hlines]
  refine ((perm_lineUnits .front units).append (perm_lineUnits .back units)).trans ?_
  rw [hback]
  exact List.filter_append_perm _ units

/-- **No two lanes share a cell**, as their rows differ. -/
theorem nodup_cells {ls : List Lane} (hrow : (ls.map Lane.row).Nodup)
    (hcols : ∀ lane ∈ ls, lane.cols.Nodup) :
    (ls.flatMap fun lane => lane.cols.map fun c => (lane.row, c)).Nodup := by
  refine List.nodup_flatMap.mpr ⟨fun lane h => ?_, ?_⟩
  · exact (hcols lane h).map fun a b hab => congrArg Prod.snd hab
  · refine (List.pairwise_map.mp hrow).imp fun hne p hp hp' => ?_
    obtain ⟨a, -, rfl⟩ := List.mem_map.mp hp
    obtain ⟨b, -, heq⟩ := List.mem_map.mp hp'
    exact hne (congrArg Prod.fst heq).symm

/-- **No unit is dropped and no two collide.** Where a line has at most
fourteen units, every unit is placed, once; its cell is on the board; no
other unit has the cell; and it is what the board shows there. -/
theorem every_unit_placed (units : List Champion) (carryId : Option GoString)
    (ctx : GuideContext)
    (hfront : (units.filter fun c => unitLine c = .front).length ≤ 14)
    (hback : (units.filter fun c => unitLine c = .back).length ≤ 14) :
    let board := buildCompBoard units carryId ctx
    (board.placed.map PlacedUnit.card).Perm (units.map Champion.card) ∧
      (board.rows = 4 ∧ board.cols = 7) ∧
      (∀ p ∈ board.placed, (0 ≤ p.row ∧ p.row < 4) ∧ 0 ≤ p.col ∧ p.col < 7) ∧
      (board.placed.map PlacedUnit.cell).Nodup ∧
      ∀ p ∈ board.placed, board.at p.row p.col = some p := by
  intro board
  have hplaced : board.placed = _ := placed_buildCompBoard hfront hback carryId ctx
  have hcolumns := columns_lanes hfront hback
  have hcards : board.placed.map PlacedUnit.card
      = ((lanes units).flatMap Lane.units).map Champion.card := by
    rw [hplaced, List.map_flatMap, List.map_flatMap]
    exact List.flatMap_congr fun lane h => map_card_placed _ (hcolumns lane h)
  have hcells : board.placed.map PlacedUnit.cell
      = (lanes units).flatMap fun lane => lane.cols.map fun c => (lane.row, c) := by
    rw [hplaced, List.map_flatMap]
    exact List.flatMap_congr fun lane h => map_cell_placed _ (hcolumns lane h)
  have hnodup : (board.placed.map PlacedUnit.cell).Nodup := by
    rw [hcells]
    exact nodup_cells (by rw [row_lanes]; decide) fun lane h => (hcolumns lane h).nodup
  refine ⟨hcards ▸ (units_lanes units).map _, ⟨rfl, rfl⟩, fun p hp => ?_, hnodup, fun p hp => ?_⟩
  · have hcell : p.cell ∈ (lanes units).flatMap fun lane => lane.cols.map fun c => (lane.row, c) :=
      hcells ▸ List.mem_map_of_mem hp
    obtain ⟨lane, hlane, hmem⟩ := List.mem_flatMap.mp hcell
    obtain ⟨c, hc, heq⟩ := List.mem_map.mp hmem
    obtain ⟨hrow, hcol⟩ := Prod.mk.inj heq
    have hrows : p.row ∈ (lanes units).map Lane.row := hrow ▸ List.mem_map_of_mem hlane
    rw [row_lanes] at hrows
    have hbounds : 0 ≤ p.col ∧ p.col < 7 := hcol ▸ (hcolumns lane hlane).mem c hc
    refine ⟨?_, hbounds⟩
    simp only [List.mem_cons, List.not_mem_nil, or_false] at hrows
    omega
  · have hfind := (find?_of_nodup_map hnodup).mpr ⟨hp, rfl⟩
    have hpred : (fun q : PlacedUnit => decide (q.cell = p.cell))
        = fun q => decide (q.row = p.row ∧ q.col = p.col) :=
      funext fun q => decide_eq_decide.mpr Prod.mk_inj
    rw [hpred] at hfind
    exact hfind

/-- Nine units without a role that fight at close range, and two casters. -/
def elevenUnits : List Champion :=
  List.replicate 9
      { id := ascii "TFT_Garen", icon := [], cost := 2, role := none, range := some 1 }
    ++ List.replicate 2
      { id := ascii "TFT_Lux", icon := [], cost := 4, role := some (ascii "APCaster"),
        range := some 4 }

/-- A front line of two rows. -/
theorem every_unit_placed_eleven :
    let board := buildCompBoard elevenUnits none { cells := [], itemIcon := [] }
    board.placed.length = 11 ∧ (board.placed.map PlacedUnit.cell).Nodup := by
  intro board
  have hlen (line : Line) : (elevenUnits.filter fun c => unitLine c = line).length ≤ 14 :=
    (List.length_filter_le _ _).trans (by decide)
  obtain ⟨hperm, -, -, hnodup, -⟩ :=
    every_unit_placed elevenUnits none { cells := [], itemIcon := [] } (hlen .front) (hlen .back)
  have hcount := hperm.length_eq
  rw [List.length_map, List.length_map] at hcount
  exact ⟨hcount, hnodup⟩

end Dashboard

end TftAnalytics

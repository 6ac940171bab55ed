import TftAnalytics.Dashboard.Helpers.Score
import Mathlib.Data.List.FinRange
import Mathlib.Logic.Equiv.Basic
/-!
# Dashboard — what helps a side never lowers its chance

Whatever has been built before, a unit or an item that comes in, a star
gained, or a loss of the other side never lowers a side's chance in the
predictor, and where the units of a side stand does not matter.
-/

namespace TftAnalytics

namespace Dashboard

/-! ## The chance to win -/

theorem combat_pos {s : ℚ} (h : 0 < s) : 0 < combat s :=
  Real.rpow_pos_of_pos (by exact_mod_cast h) _

theorem combat_mono {s s' : ℚ} (hpos : 0 ≤ s) (h : s ≤ s') : combat s ≤ combat s' :=
  Real.rpow_le_rpow (by exact_mod_cast hpos) (by exact_mod_cast h) (by norm_num [combatExp])

theorem winPct_of_pos {sy sf : ℚ} (hy : 0 < sy) (hf : 0 < sf) :
    winPct sy sf = 100 * combat sy / (combat sy + combat sf) := by
  rw [winPct, if_neg fun h : sy ≤ 0 ∧ sf ≤ 0 => hy.not_ge h.1, if_neg hf.not_ge, if_neg hy.not_ge]

theorem winPct_of_foe {sy sf : ℚ} (hy : 0 < sy) (hf : sf ≤ 0) : winPct sy sf = 100 := by
  rw [winPct, if_neg fun h : sy ≤ 0 ∧ sf ≤ 0 => hy.not_ge h.1, if_pos hf]

theorem winPct_of_you {sy sf : ℚ} (hy : sy ≤ 0) (hf : 0 < sf) : winPct sy sf = 0 := by
  rw [winPct, if_neg fun h : sy ≤ 0 ∧ sf ≤ 0 => hf.not_ge h.2, if_neg hf.not_ge, if_pos hy]

theorem winPct_of_both {sy sf : ℚ} (hy : sy ≤ 0) (hf : sf ≤ 0) : winPct sy sf = 50 :=
  if_pos ⟨hy, hf⟩

theorem winPct_nonneg (sy sf : ℚ) : 0 ≤ winPct sy sf := by
  rcases le_or_gt sy 0 with hy | hy <;> rcases le_or_gt sf 0 with hf | hf
  · norm_num [winPct_of_both hy hf]
  · exact (winPct_of_you hy hf).ge
  · norm_num [winPct_of_foe hy hf]
  · have hyou := combat_pos hy
    have hfoe := combat_pos hf
    rw [winPct_of_pos hy hf]
    positivity

/-- The chances of the two sides add up. -/
theorem winPct_swap (sy sf : ℚ) : winPct sf sy = 100 - winPct sy sf := by
  rcases le_or_gt sy 0 with hy | hy <;> rcases le_or_gt sf 0 with hf | hf
  · norm_num [winPct_of_both hy hf, winPct_of_both hf hy]
  · norm_num [winPct_of_you hy hf, winPct_of_foe hf hy]
  · norm_num [winPct_of_foe hy hf, winPct_of_you hf hy]
  · have hsum : combat sf + combat sy ≠ 0 := (add_pos (combat_pos hf) (combat_pos hy)).ne'
    rw [winPct_of_pos hy hf, winPct_of_pos hf hy, add_comm (combat sy), eq_sub_iff_add_eq,
      ← add_div, ← mul_add, mul_div_cancel_right₀ _ hsum]

theorem winPct_le (sy sf : ℚ) : winPct sy sf ≤ 100 := by
  have hother := winPct_nonneg sf sy
  rw [winPct_swap sy sf] at hother
  linarith

/-- A higher score, a higher chance. -/
theorem winPct_mono {sy sy' : ℚ} (h : sy ≤ sy') (sf : ℚ) : winPct sy sf ≤ winPct sy' sf := by
  rcases le_or_gt sf 0 with hf | hf <;> rcases le_or_gt sy 0 with hy | hy
  · rw [winPct_of_both hy hf]
    rcases le_or_gt sy' 0 with hy' | hy'
    · exact (winPct_of_both hy' hf).ge
    · norm_num [winPct_of_foe hy' hf]
  · rw [winPct_of_foe hy hf, winPct_of_foe (hy.trans_le h) hf]
  · rw [winPct_of_you hy hf]
    exact winPct_nonneg sy' sf
  · have hyou := combat_pos hy
    have hfoe := combat_pos hf
    have hmono := combat_mono hy.le h
    rw [winPct_of_pos hy hf, winPct_of_pos (hy.trans_le h) hf,
      div_le_div_iff₀ (by positivity) (by linarith)]
    nlinarith

theorem winPct_anti {sf sf' : ℚ} (h : sf ≤ sf') (sy : ℚ) : winPct sy sf' ≤ winPct sy sf := by
  rw [winPct_swap sf' sy, winPct_swap sf sy]
  exact sub_le_sub_left (winPct_mono h sy) 100

namespace Boards

variable {d : BuilderData} {b b' : Boards} {side : Side}

/-! ## What the boards hold -/

/-- The gesture drops no champion but one of the roster. -/
def Gesture.FromRoster (d : BuilderData) : Gesture → Prop
  | .dropChampion _ champ => champ ∈ d.champions
  | _ => True

/-- Every unit is of the roster and holds three items at most. -/
def Kept (d : BuilderData) (b : Boards) : Prop :=
  ∀ cell, ∀ c ∈ b cell, c.champ ∈ d.champions ∧ c.items.length ≤ maxItems

theorem Kept.setCell (h : b.Kept d) {cell : BuilderCell} {f : Option Fielded → Option Fielded}
    (hf : ∀ c ∈ f (b cell), c.champ ∈ d.champions ∧ c.items.length ≤ maxItems) :
    (b.setCell cell f).Kept d := by
  intro cell' c hc
  rw [Boards.setCell, Function.update_apply] at hc
  split_ifs at hc
  · exact hf c hc
  · exact h cell' c hc

theorem Kept.step (h : b.Kept d) {g : Gesture} (hg : g.FromRoster d) : (b.step g).Kept d := by
  cases g with
  | dropChampion cell champ =>
    refine h.setCell (f := fun _ => some ⟨champ, [], .one⟩) fun c hc => ?_
    obtain rfl := Option.some.inj hc
    exact ⟨hg, Nat.zero_le _⟩
  | dropUnit cell origin =>
    intro cell' c hc
    simp only [Boards.step, Function.update_apply] at hc
    split_ifs at hc
    · exact h cell c hc
    · exact h origin c hc
    · exact h cell' c hc
  | dropItem cell item =>
    refine h.setCell fun c hc => ?_
    obtain ⟨c₀, hc₀, rfl⟩ := Option.mem_map.mp hc
    obtain ⟨hchamp, hitems⟩ := h cell c₀ hc₀
    split_ifs with hfull
    · exact ⟨hchamp, hitems⟩
    · exact ⟨hchamp, by simpa using Nat.lt_of_not_le hfull⟩
  | click cell =>
    refine h.setCell fun c hc => ?_
    obtain ⟨c₀, hc₀, rfl⟩ := Option.mem_map.mp hc
    exact h cell c₀ hc₀
  | removeCell cell =>
    refine h.setCell (f := fun _ => none) fun c hc => ?_
    nomatch hc
  | removeItem cell k =>
    refine h.setCell fun c hc => ?_
    obtain ⟨c₀, hc₀, rfl⟩ := Option.mem_map.mp hc
    obtain ⟨hchamp, hitems⟩ := h cell c₀ hc₀
    exact ⟨hchamp, (List.eraseIdx_sublist _ k).length_le.trans hitems⟩
  | clearAll => exact fun _ _ hc => nomatch hc

/-- **What is built** is of the roster. -/
theorem kept_run {gestures : List Gesture} (h : ∀ g ∈ gestures, g.FromRoster d) :
    (run gestures).Kept d := by
  induction gestures using List.reverseRecOn with
  | nil => exact fun _ _ hc => nomatch hc
  | append_singleton gestures g ih =>
    rw [run, List.foldl_concat]
    exact (ih fun g' hg' => h g' (List.mem_append_left _ hg')).step (h g (by simp))

/-- The traits that the roster gives an id. -/
def rosterTraits (d : BuilderData) (id : GoString) : List GoString :=
  ((d.champions.find? fun champ => champ.id = id).map (·.traits)).getD []

theorem rosterTraits_id (h : (d.champions.map (·.id)).Nodup) {champ : RosterChampion}
    (hchamp : champ ∈ d.champions) : champ.traits = rosterTraits d champ.id := by
  unfold rosterTraits
  cases hfind : d.champions.find? fun c => c.id = champ.id with
  | none => simpa using List.find?_eq_none.mp hfind champ hchamp
  | some c =>
    have hid : c.id = champ.id := by simpa using List.find?_some hfind
    rw [List.inj_on_of_nodup_map h (List.mem_of_find?_eq_some hfind) hchamp hid]
    rfl

theorem mem_placed {c : Fielded} : c ∈ b.placed side ↔ ∃ i, c ∈ b (side, i) := by
  rw [placed, List.reduceOption_mem_iff, List.mem_ofFn]
  rfl

theorem Kept.traitsOf (h : b.Kept d) (hroster : (d.champions.map (·.id)).Nodup) (side : Side) :
    TraitsOf (rosterTraits d) (b.placed side) := by
  intro c hc
  obtain ⟨i, hi⟩ := mem_placed.mp hc
  exact rosterTraits_id hroster (h _ c hi).1

/-! ## Cell by cell -/

/-- What is in a cell is still there, perhaps stronger. -/
def CellBelow (o o' : Option Fielded) : Prop := ∀ c ∈ o, ∃ c' ∈ o', c.Below c'

theorem CellBelow.refl (o : Option Fielded) : CellBelow o o := fun c hc => ⟨c, hc, .refl c⟩

theorem CellBelow.none (o : Option Fielded) : CellBelow none o := fun _ hc => nomatch hc

theorem CellBelow.map {f : Fielded → Fielded} {o : Option Fielded} (h : ∀ c ∈ o, c.Below (f c)) :
    CellBelow o (o.map f) :=
  fun c hc => ⟨f c, Option.mem_map_of_mem f hc, h c hc⟩

theorem stronger_reduceOption {l l' : List (Option Fielded)} (h : List.Forall₂ CellBelow l l') :
    ∃ s, List.Forall₂ Fielded.Below l.reduceOption s ∧ s.Sublist l'.reduceOption := by
  induction h with
  | nil => exact ⟨[], .nil, List.Sublist.refl _⟩
  | @cons o o' l l' ho _ ih =>
    obtain ⟨s, hbelow, hsub⟩ := ih
    cases o with
    | none =>
      refine ⟨s, hbelow, hsub.trans ?_⟩
      cases o' with
      | none => exact List.Sublist.refl _
      | some c' => exact List.sublist_cons_self c' _
    | some c =>
      obtain ⟨c', hc', hle⟩ := ho c rfl
      obtain rfl := Option.mem_def.mp hc'
      exact ⟨c' :: s, .cons hle hbelow, hsub.cons_cons c'⟩

theorem stronger_of_cells (h : ∀ i, CellBelow (b (side, i)) (b' (side, i))) :
    Stronger (b.placed side) (b'.placed side) := by
  have hcells : List.Forall₂ CellBelow (List.ofFn fun i => b (side, i))
      (List.ofFn fun i => b' (side, i)) := by
    rw [List.ofFn_eq_map, List.ofFn_eq_map, List.forall₂_map_left_iff, List.forall₂_map_right_iff]
    exact List.forall₂_same.mpr fun i _ => h i
  obtain ⟨s, hbelow, hsub⟩ := stronger_reduceOption hcells
  exact ⟨s, hbelow, hsub.subperm⟩

/-- No weaker on one side, and no stronger on the other. -/
def Better (side : Side) (b b' : Boards) : Prop :=
  Stronger (b.placed side) (b'.placed side) ∧
    ∀ other, other ≠ side → Stronger (b'.placed other) (b.placed other)

/-- Cell by cell. -/
theorem better_of_cells (hside : ∀ i, CellBelow (b (side, i)) (b' (side, i)))
    (hother : ∀ other i, other ≠ side → CellBelow (b' (other, i)) (b (other, i))) :
    Better side b b' :=
  ⟨stronger_of_cells hside, fun other h => stronger_of_cells fun i => hother other i h⟩

/-- A gain in one cell. -/
theorem better_of_gain {i : Fin 28} {f : Option Fielded → Option Fielded}
    (h : CellBelow (b (side, i)) (f (b (side, i)))) : Better side b (b.setCell (side, i) f) := by
  refine better_of_cells (fun k => ?_) fun other k hother => ?_
  · rw [setCell, Function.update_apply]
    split_ifs with hk
    · rw [hk]
      exact h
    · exact .refl _
  · rw [setCell, Function.update_of_ne fun hk => hother (congrArg Prod.fst hk)]
    exact .refl _

/-- A loss in one cell of the other side. -/
theorem better_of_loss {cell : BuilderCell} (hfoe : cell.1 ≠ side)
    {f : Option Fielded → Option Fielded} (h : CellBelow (f (b cell)) (b cell)) :
    Better side b (b.setCell cell f) := by
  refine better_of_cells (fun k => ?_) fun other k hother => ?_
  · rw [setCell, Function.update_of_ne fun hk => hfoe (congrArg Prod.fst hk).symm]
    exact .refl _
  · rw [setCell, Function.update_apply]
    split_ifs with hk
    · rw [hk]
      exact h
    · exact .refl _

/-- A move within a side leaves its units. -/
theorem placed_dropUnit {i j : Fin 28} :
    ((b.step (.dropUnit (side, i) (side, j))).placed side).Perm (b.placed side) := by
  have hswap : (fun k => b.step (.dropUnit (side, i) (side, j)) (side, k))
      = (fun k => b (side, k)) ∘ Equiv.swap i j := by
    funext k
    simp only [Boards.step, Function.update_apply, Function.comp_apply, Equiv.swap_apply_def,
      Prod.mk.injEq, true_and]
    split_ifs <;> simp_all
  unfold placed
  rw [hswap]
  exact (Equiv.Perm.ofFn_comp_perm (Equiv.swap i j) _).filterMap _

/-! ## What favours a side -/

/-- A gesture that can only help a side: a champion or a unit comes into an
empty cell of it, a unit of it gets an item or a star, a unit of the other
side is lost, or loses an item or its stars, or units move within a side. -/
inductive Favours (b : Boards) (side : Side) : Gesture → Prop
  | field (i : Fin 28) (champ : RosterChampion) (hempty : b (side, i) = none) :
    Favours b side (.dropChampion (side, i) champ)
  | join (i : Fin 28) (origin : BuilderCell) (hempty : b (side, i) = none) :
    Favours b side (.dropUnit (side, i) origin)
  | equip (i : Fin 28) (item : BuildItem) : Favours b side (.dropItem (side, i) item)
  | starUp (i : Fin 28) (hstar : ∀ c ∈ b (side, i), c.star ≠ .three) :
    Favours b side (.click (side, i))
  | foeLost (cell : BuilderCell) (hfoe : cell.1 ≠ side) : Favours b side (.removeCell cell)
  | foeStripped (cell : BuilderCell) (k : ℕ) (hfoe : cell.1 ≠ side) :
    Favours b side (.removeItem cell k)
  | foeStarDown (cell : BuilderCell) (hfoe : cell.1 ≠ side) (hstar : ∀ c ∈ b cell, c.star = .three) :
    Favours b side (.click cell)
  | move (side' : Side) (i j : Fin 28) : Favours b side (.dropUnit (side', i) (side', j))

/-- A move within a side is no change. -/
theorem better_move (side side' : Side) (i j : Fin 28) :
    Better side b (b.step (.dropUnit (side', i) (side', j))) := by
  have hkeep : ∀ other, ((b.step (.dropUnit (side', i) (side', j))).placed other).Perm
      (b.placed other) := by
    intro other
    by_cases hside : other = side'
    · exact hside ▸ placed_dropUnit
    · have hcells : (fun k => b.step (.dropUnit (side', i) (side', j)) (other, k))
          = fun k => b (other, k) := by
        funext k
        have hne : ∀ m, (other, k) ≠ (side', m) := fun m h => hside (congrArg Prod.fst h)
        rw [Boards.step, Function.update_of_ne (hne j), Function.update_of_ne (hne i)]
      unfold placed
      rw [hcells]
  exact ⟨.of_perm (hkeep side).symm, fun other _ => .of_perm (hkeep other)⟩

/-- **What favours a side** makes it no weaker and the other no stronger. -/
theorem Favours.better {g : Gesture} (h : b.Favours side g) : Better side b (b.step g) := by
  cases h with
  | field i champ hempty =>
    refine better_of_gain (f := fun _ => some ⟨champ, [], .one⟩) ?_
    rw [hempty]
    exact .none _
  | join i origin hempty =>
    obtain ⟨home, j⟩ := origin
    by_cases hhome : home = side
    · rw [hhome]
      exact better_move side side i j
    · -- it leaves the other side
      refine better_of_cells (fun k => ?_) fun other k hother => ?_
      · rw [Boards.step, Function.update_of_ne fun hk => hhome (congrArg Prod.fst hk).symm,
          Function.update_apply]
        split_ifs with hk
        · rw [hk, hempty]
          exact .none _
        · exact .refl _
      · rw [Boards.step, hempty, Function.update_apply]
        split_ifs with hk
        · exact .none _
        · rw [Function.update_of_ne fun hk => hother (congrArg Prod.fst hk)]
          exact .refl _
  | equip i item =>
    refine better_of_gain (.map fun c _ => ?_)
    split_ifs
    · exact .refl c
    · exact ⟨rfl, le_rfl, List.sublist_append_left _ _⟩
  | starUp i hstar =>
    refine better_of_gain (.map fun c hc => ⟨rfl, ?_, List.Sublist.refl _⟩)
    exact Star.level_le_next (hstar c hc)
  | foeLost cell hfoe => exact better_of_loss (f := fun _ => none) hfoe (.none _)
  | foeStripped cell k hfoe =>
    refine better_of_loss hfoe fun c hc => ?_
    obtain ⟨c', hc', rfl⟩ := Option.mem_map.mp hc
    exact ⟨c', hc', rfl, le_rfl, List.eraseIdx_sublist _ k⟩
  | foeStarDown cell hfoe hstar =>
    refine better_of_loss hfoe fun c hc => ?_
    obtain ⟨c', hc', rfl⟩ := Option.mem_map.mp hc
    refine ⟨c', hc', rfl, ?_, List.Sublist.refl _⟩
    rw [hstar c' hc']
    exact Star.level_next_three
  | move side' i j => exact better_move side side' i j

/-- The prediction follows the two boards. -/
theorem prediction_mono (hroster : (d.champions.map (·.id)).Nodup) (hb : b.Kept d)
    (hb' : b'.Kept d) (hyou : Stronger (b.placed .player) (b'.placed .player))
    (hfoe : Stronger (b'.placed .enemy) (b.placed .enemy)) :
    b.prediction d ≤ b'.prediction d := by
  have hsy := hyou.total_le (d := d) (hb.traitsOf hroster _) (hb'.traitsOf hroster _)
  have hsf := hfoe.total_le (d := d) (hb'.traitsOf hroster _) (hb.traitsOf hroster _)
  refine Int.floor_le_floor (add_le_add_left ?_ _)
  exact (winPct_mono hsy _).trans (winPct_anti hsf _)

/-- The prediction is a percentage. -/
theorem prediction_mem (d : BuilderData) (b : Boards) :
    0 ≤ b.prediction d ∧ b.prediction d ≤ 100 := by
  have hpos := winPct_nonneg (scoreBoard d (b.placed .player)).total
    (scoreBoard d (b.placed .enemy)).total
  have hle := winPct_le (scoreBoard d (b.placed .player)).total
    (scoreBoard d (b.placed .enemy)).total
  have hhalf : ((1 / 2 : ℚ) : ℝ) = 1 / 2 := by norm_num
  unfold prediction
  rw [hhalf]
  constructor
  · exact Int.floor_nonneg.mpr (by linarith)
  · refine Int.lt_add_one_iff.mp (Int.floor_lt.mpr ?_)
    push_cast
    linarith

/-- **What helps a side never lowers its chance.** Whatever has been built
from the roster, a gesture that favours a side does not turn the prediction
against it, and the prediction stays a percentage. -/
theorem favours_prediction (hroster : (d.champions.map (·.id)).Nodup) {gestures : List Gesture}
    {g : Gesture} (hgestures : ∀ g' ∈ gestures ++ [g], g'.FromRoster d) :
    let before := (run gestures).prediction d
    let after := (run (gestures ++ [g])).prediction d
    ((run gestures).Favours .player g → before ≤ after) ∧
      ((run gestures).Favours .enemy g → after ≤ before) ∧ 0 ≤ after ∧ after ≤ 100 := by
  have hkept := kept_run hgestures
  have hkept₀ := kept_run fun g' hg' => hgestures g' (List.mem_append_left _ hg')
  have hstep : run (gestures ++ [g]) = (run gestures).step g := List.foldl_concat ..
  refine ⟨fun h => ?_, fun h => ?_, prediction_mem d _⟩
  · obtain ⟨hyou, hfoe⟩ := h.better
    rw [← hstep] at hyou hfoe
    exact prediction_mono hroster hkept₀ hkept hyou (hfoe .enemy (by decide))
  · obtain ⟨hfoe, hyou⟩ := h.better
    rw [← hstep] at hyou hfoe
    exact prediction_mono hroster hkept hkept₀ (hyou .player (by decide)) hfoe

/-- An item for a unit that was moved. -/
theorem favours_prediction_equip :
    let aatrox : RosterChampion := ⟨ascii "TFT17_Aatrox", 1, [ascii "N.O.V.A.", ascii "Bastion"]⟩
    let briar : RosterChampion := ⟨ascii "TFT17_Briar", 1, [ascii "Anima", ascii "Rogue"]⟩
    let d : BuilderData := ⟨[aatrox, briar], fun _ => [2, 4], none⟩
    let gestures : List Gesture := [.dropChampion (.player, 0) aatrox,
      .dropChampion (.enemy, 3) briar, .dropUnit (.player, 9) (.player, 0)]
    (run gestures).prediction d
      ≤ (run (gestures ++ [.dropItem (.player, 9) ⟨ascii "Item", ascii "radiant"⟩])).prediction d :=
  (favours_prediction (by decide) (by simp [Gesture.FromRoster])).1 (.equip 9 _)

end Boards

end Dashboard

end TftAnalytics

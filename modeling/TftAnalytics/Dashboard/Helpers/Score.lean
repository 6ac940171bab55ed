import TftAnalytics.Dashboard.Model.TeamBuilder
import TftAnalytics.Common.Grouping
import Mathlib.Algebra.BigOperators.Group.Finset.Basic
import Mathlib.Algebra.Order.BigOperators.Group.Finset
import Mathlib.Tactic.Linarith
import Mathlib.Tactic.Positivity
/-!
# Dashboard — stronger boards score more

Every factor of a score is positive and does not fall when units get stars
or items and more units come in, as long as the champions of one id have
the same traits. None of them depends on the order of the units.
-/

namespace TftAnalytics

namespace Dashboard

variable {d : BuilderData} {l l' : List Fielded}

/-! ## One unit -/

theorem clamp_le_clamp {x lo hi : ℚ} (h : lo ≤ hi) : lo ≤ clamp x lo hi ∧ clamp x lo hi ≤ hi :=
  ⟨le_max_left _ _, max_le h (min_le_left _ _)⟩

theorem metaStrength_pos (s : Option MetaStat) : 0 < metaStrength s := by
  cases s with
  | none => exact one_pos
  | some s => exact lt_of_lt_of_le (by norm_num) (clamp_le_clamp (by norm_num)).1

theorem itemPower_pos (kind : GoString) : 0 < itemPower kind := by
  unfold itemPower
  split_ifs <;> norm_num

theorem costOr_pos (c : RosterChampion) : 0 < c.costOr := by
  unfold RosterChampion.costOr
  split_ifs with h
  · exact one_pos
  · exact Nat.pos_of_ne_zero h

theorem costBase_pos {cost : ℕ} (h : 0 < cost) : 0 < costBase cost := by
  have hcast : (0 : ℚ) < cost := by exact_mod_cast h
  unfold costBase
  split <;> first | exact hcast | norm_num

/-- `c.star` as a number. -/
def Star.level : Star → ℕ
  | .one => 1
  | .two => 2
  | .three => 3

theorem Star.level_le_next {star : Star} (h : star ≠ .three) : star.level ≤ star.next.level := by
  cases star with
  | one => decide
  | two => decide
  | three => exact absurd rfl h

theorem Star.level_next_three : Star.three.next.level ≤ Star.three.level := by decide

theorem starPower_pos (star : Star) : 0 < starPower star := by
  cases star <;> norm_num [starPower]

theorem starPower_mono {star star' : Star} (h : star.level ≤ star'.level) :
    starPower star ≤ starPower star' := by
  cases star <;> cases star' <;> simp_all [Star.level, starPower] <;> norm_num

theorem carryMult_mono (cost : ℕ) {star star' : Star} (h : star.level ≤ star'.level) :
    carryMult cost star ≤ carryMult cost star' := by
  have hone : ∀ star, 1 ≤ carryMult cost star := by
    intro star
    cases star with
    | one => exact le_rfl
    | two =>
      unfold carryMult
      simp only
      split_ifs <;> norm_num
    | three =>
      unfold carryMult
      simp only
      split_ifs <;> norm_num
  cases star with
  | one => exact hone star'
  | two =>
    cases star' with
    | one => exact absurd h (by decide)
    | two => exact le_rfl
    | three =>
      unfold carryMult
      simp only
      split_ifs <;> norm_num
  | three =>
    cases star' with
    | one => exact absurd h (by decide)
    | two => exact absurd h (by decide)
    | three => exact le_rfl

theorem foldl_add_eq {ι : Type} (f : ι → ℚ) (xs : List ι) (z : ℚ) :
    xs.foldl (fun s x => s + f x) z = z + (xs.map f).sum := by
  induction xs generalizing z with
  | nil => rw [List.foldl_nil, List.map_nil, List.sum_nil, add_zero]
  | cons x xs ih => rw [List.foldl_cons, ih, List.map_cons, List.sum_cons, add_assoc]

theorem itemFactor_mono (itemMeta : GoString → Option MetaStat) (cost : ℕ)
    {items items' : List BuildItem} (h : items.Sublist items') :
    itemFactor itemMeta cost items ≤ itemFactor itemMeta cost items' := by
  unfold itemFactor
  rw [foldl_add_eq, foldl_add_eq]
  refine add_le_add_right ((h.map _).sum_le_sum fun x hx => ?_) 1
  obtain ⟨it, -, rfl⟩ := List.mem_map.mp hx
  have hpower := itemPower_pos it.kind
  have hstrength := metaStrength_pos (itemMeta it.id)
  positivity

theorem itemFactor_pos (itemMeta : GoString → Option MetaStat) (cost : ℕ)
    (items : List BuildItem) : 0 < itemFactor itemMeta cost items :=
  lt_of_lt_of_le one_pos (itemFactor_mono itemMeta cost (List.nil_sublist items))

/-- A unit has become another: no fewer stars, and no items lost. -/
structure Fielded.Below (c c' : Fielded) : Prop where
  champ : c'.champ = c.champ
  star : c.star.level ≤ c'.star.level
  items : c.items.Sublist c'.items

theorem Fielded.Below.refl (c : Fielded) : c.Below c := ⟨rfl, le_rfl, List.Sublist.refl _⟩

theorem contribution_pos (d : BuilderData) (c : Fielded) : 0 < contribution d c := by
  have hcost := costBase_pos (costOr_pos c.champ)
  have hstar := starPower_pos c.star
  have hchamp := metaStrength_pos (d.champMeta c.champ.id)
  have hitems := itemFactor_pos d.itemMeta c.champ.costOr c.items
  unfold contribution
  positivity

theorem Fielded.Below.contribution_le {c c' : Fielded} (h : c.Below c') :
    contribution d c ≤ contribution d c' := by
  have hcost := costBase_pos (costOr_pos c.champ)
  have hchamp := metaStrength_pos (d.champMeta c.champ.id)
  have hstar := starPower_mono h.star
  have hitems := itemFactor_mono d.itemMeta c.champ.costOr h.items
  have hpos := itemFactor_pos d.itemMeta c.champ.costOr c.items
  have hstarpos := starPower_pos c'.star
  unfold contribution
  rw [h.champ]
  gcongr

/-! ## The tally -/

theorem tally_concat (d : BuilderData) (l : List Fielded) (c : Fielded) :
    tally d (l ++ [c]) = (tally d l).add d c :=
  List.foldl_concat ..

theorem contributions_tally (d : BuilderData) (l : List Fielded) :
    (tally d l).contributions = l.map (contribution d) := by
  induction l using List.reverseRecOn with
  | nil => rfl
  | append_singleton l c ih =>
    rw [tally_concat, List.map_append, ← ih]
    rfl

theorem front_tally (d : BuilderData) (l : List Fielded) :
    (tally d l).front = l.countP fun c => c.champ.traits.any (· ∈ frontline) := by
  induction l using List.reverseRecOn with
  | nil => rfl
  | append_singleton l c ih =>
    rw [tally_concat, List.countP_append, List.countP_singleton, ← ih, Tally.add]
    split_ifs <;> rfl

theorem back_tally (d : BuilderData) (l : List Fielded) :
    (tally d l).back = l.countP fun c => c.champ.traits.any (· ∈ backline) := by
  induction l using List.reverseRecOn with
  | nil => rfl
  | append_singleton l c ih =>
    rw [tally_concat, List.countP_append, List.countP_singleton, ← ih, Tally.add]
    split_ifs <;> rfl

theorem carry_tally_le_iff (d : BuilderData) (l : List Fielded) (x : ℚ) :
    (tally d l).carry ≤ x ↔ 1 ≤ x ∧ ∀ c ∈ l, carryMult c.champ.costOr c.star ≤ x := by
  induction l using List.reverseRecOn with
  | nil => exact ⟨fun h => ⟨h, by simp⟩, fun h => h.1⟩
  | append_singleton l c ih =>
    rw [tally_concat, Tally.add, max_le_iff, ih, List.forall_mem_append, List.forall_mem_singleton,
      and_assoc]

theorem seen_tally (d : BuilderData) (l : List Fielded) :
    (tally d l).seen.Nodup ∧ ∀ id, id ∈ (tally d l).seen ↔ id ∈ l.map (·.champ.id) := by
  induction l using List.reverseRecOn with
  | nil => exact ⟨List.nodup_nil, fun _ => Iff.rfl⟩
  | append_singleton l c ih =>
    obtain ⟨hnodup, hmem⟩ := ih
    rw [tally_concat, Tally.add, List.map_append, List.map_singleton]
    simp only [List.mem_append, List.mem_singleton]
    split_ifs with hseen
    · refine ⟨hnodup, fun id => (hmem id).trans (or_iff_left_of_imp ?_).symm⟩
      rintro rfl
      exact (hmem _).mp hseen
    · refine ⟨List.nodup_append'.mpr ⟨hnodup, List.nodup_singleton _, by simpa using hseen⟩, ?_⟩
      intro id
      rw [List.mem_append, List.mem_singleton, hmem]

/-! ## The traits -/

/-- The traits of champions that are known by their ids. -/
def TraitsOf (traitsOf : GoString → List GoString) (l : List Fielded) : Prop :=
  ∀ c ∈ l, c.champ.traits = traitsOf c.champ.id

/-- How often each trait comes up. -/
def countTraits (names : List GoString) : List (GoString × ℕ) :=
  gather 0 (fun n _ => n + 1) (names.map fun name => (name, ())) []

theorem traitCount_tally {traitsOf : GoString → List GoString} (h : TraitsOf traitsOf l) :
    (tally d l).traitCount = countTraits ((tally d l).seen.flatMap traitsOf) := by
  induction l using List.reverseRecOn with
  | nil => rfl
  | append_singleton l c ih =>
    have ih := ih fun c hc => h c (List.mem_append_left _ hc)
    have htraits := h c (by simp)
    rw [tally_concat, Tally.add]
    simp only
    split_ifs with hseen
    · exact ih
    · rw [ih, htraits, countTraits, countTraits, List.flatMap_append, List.map_append,
        gather_append, List.flatMap_singleton]
      unfold gather
      rw [List.foldl_map, List.foldl_map]

/-- What a trait that `n` champions have adds. -/
def traitGain (d : BuilderData) (name : GoString) (n : ℕ) : ℚ :=
  ((d.breakpoints name).countP fun b => decide (b ≤ (n : ℚ))) * (8 / 100)
    * held 1 (traitStrength d) name

/-- The boost, trait by trait. -/
theorem traitBoost_countTraits (d : BuilderData) (names : List GoString) :
    traitBoost d (countTraits names)
      = ∑ name ∈ names.toFinset, traitGain d name (names.filter fun n => n = name).length := by
  have hkeys : (names.map fun name => (name, ())).map Prod.fst = names := by
    rw [List.map_map]
    exact List.map_id' names
  have hcount : ∀ name, (valuesAt (names.map fun name => (name, ())) name).foldl
      (fun n _ => n + 1) 0 = (names.filter fun n => n = name).length := by
    intro name
    rw [foldl_succ, valuesAt, List.length_map, List.filter_map, List.length_map]
    rfl
  have hperm : (countTraits names).Perm
      (names.dedup.map fun name => (name, (names.filter fun n => n = name).length)) := by
    have hperm := gather_perm 0 (fun n (_ : Unit) => n + 1) (names.map fun name => (name, ()))
    rw [hkeys] at hperm
    simpa only [countTraits, hcount] using hperm
  have hsum : traitBoost d (countTraits names)
      = ((countTraits names).map fun e => traitGain d e.1 e.2).sum :=
    (foldl_add_eq _ _ 0).trans (zero_add _)
  have hdedup : names.toFinset = names.dedup.toFinset := by
    ext name
    rw [List.mem_toFinset, List.mem_toFinset, List.mem_dedup]
  rw [hsum, (hperm.map fun e => traitGain d e.1 e.2).sum_eq, List.map_map, hdedup,
    List.sum_toFinset _ (List.nodup_dedup names)]
  rfl

/-- The sums of what is positive. -/
theorem strengthSums_nonneg {strength : RosterChampion → ℚ} (hpos : ∀ c, 0 < strength c)
    (champions : List RosterChampion) (key : GoString) :
    0 ≤ (held ((0 : ℚ), 0) (champions.foldl (fun acc c => c.traits.foldl
      (fun acc name => upsert ((0 : ℚ), 0)
        (fun e : ℚ × ℕ => (e.1 + strength c, e.2 + 1)) name acc) acc) []) key).1 := by
  induction champions using List.reverseRecOn with
  | nil => exact le_rfl
  | append_singleton champions c ih =>
    rw [List.foldl_append, List.foldl_cons, List.foldl_nil]
    induction c.traits using List.reverseRecOn with
    | nil => exact ih
    | append_singleton traits t ih =>
      rw [List.foldl_append, List.foldl_cons, List.foldl_nil, held_upsert]
      split_ifs
      · exact add_nonneg ih (hpos c).le
      · exact ih

/-- No trait is weak enough to count against a board. -/
theorem traitStrength_nonneg (d : BuilderData) (name : GoString) :
    0 ≤ held 1 (traitStrength d) name := by
  unfold traitStrength
  cases d.stats with
  | none => exact zero_le_one
  | some stats =>
    have hsum := strengthSums_nonneg (fun c => metaStrength_pos (stats.1 c.id)) d.champions name
    have hmean : ∀ found : Option (ℚ × ℕ), 0 ≤ (found.getD (0, 0)).1 →
        0 ≤ (found.map fun e => e.1 / (e.2 : ℚ)).getD 1 := by
      intro found hsum
      cases found with
      | none => exact zero_le_one (α := ℚ)
      | some e => exact div_nonneg hsum (Nat.cast_nonneg _)
    simp only
    rw [held, lookup_map_snd fun e : ℚ × ℕ => e.1 / e.2]
    exact hmean _ hsum

theorem traitGain_nonneg (d : BuilderData) (name : GoString) (n : ℕ) : 0 ≤ traitGain d name n := by
  have hstrength := traitStrength_nonneg d name
  unfold traitGain
  positivity

theorem traitGain_mono (d : BuilderData) (name : GoString) {n n' : ℕ} (h : n ≤ n') :
    traitGain d name n ≤ traitGain d name n' := by
  have hstrength := traitStrength_nonneg d name
  have hle : (n : ℚ) ≤ n' := by exact_mod_cast h
  have htiers : ((d.breakpoints name).countP fun b => decide (b ≤ (n : ℚ)))
      ≤ (d.breakpoints name).countP fun b => decide (b ≤ (n' : ℚ)) :=
    List.countP_mono_left fun b _ hb => by
      rw [decide_eq_true_iff] at hb ⊢
      exact hb.trans hle
  unfold traitGain
  gcongr

/-- More champions, more boost. -/
theorem traitBoost_mono (d : BuilderData) {names names' : List GoString}
    (h : names.Subperm names') :
    traitBoost d (countTraits names) ≤ traitBoost d (countTraits names') := by
  rw [traitBoost_countTraits, traitBoost_countTraits]
  calc ∑ name ∈ names.toFinset, traitGain d name (names.filter fun n => n = name).length
      ≤ ∑ name ∈ names.toFinset, traitGain d name (names'.filter fun n => n = name).length :=
        Finset.sum_le_sum fun name _ => traitGain_mono d name (h.filter _).length_le
    _ ≤ ∑ name ∈ names'.toFinset, traitGain d name (names'.filter fun n => n = name).length := by
        refine Finset.sum_le_sum_of_subset_of_nonneg ?_ fun name _ _ => traitGain_nonneg d name _
        exact fun name hname => List.mem_toFinset.mpr (h.subset (List.mem_toFinset.mp hname))

theorem traitBoost_nonneg (d : BuilderData) (names : List GoString) :
    0 ≤ traitBoost d (countTraits names) := by
  rw [traitBoost_countTraits]
  exact Finset.sum_nonneg fun name _ => traitGain_nonneg d name _

/-! ## The score -/

/-- A board has become another: its units have become others, in any order,
and more may have come in. -/
def Stronger (l l' : List Fielded) : Prop :=
  ∃ s, List.Forall₂ Fielded.Below l s ∧ s.Subperm l'

theorem Stronger.refl (l : List Fielded) : Stronger l l :=
  ⟨l, List.forall₂_same.mpr fun c _ => .refl c, List.Subperm.refl l⟩

theorem Stronger.of_perm (h : l.Perm l') : Stronger l l' :=
  ⟨l, List.forall₂_same.mpr fun c _ => .refl c, h.subperm⟩

/-- Each unit is still there. -/
theorem Stronger.exists_below (h : Stronger l l') {c : Fielded} (hc : c ∈ l) :
    ∃ c' ∈ l', c.Below c' := by
  obtain ⟨s, hbelow, hsub⟩ := h
  obtain ⟨k, hk, rfl⟩ := List.mem_iff_getElem.mp hc
  have hk' : k < s.length := hbelow.length_eq ▸ hk
  exact ⟨s[k], hsub.subset (List.getElem_mem hk'), hbelow.get hk hk'⟩

theorem Stronger.countP_le (h : Stronger l l') (p : RosterChampion → Bool) :
    (l.countP fun c => p c.champ) ≤ l'.countP fun c => p c.champ := by
  obtain ⟨s, hbelow, hsub⟩ := h
  refine le_trans (le_of_eq ?_) (hsub.countP_le _)
  clear hsub
  induction hbelow with
  | nil => rfl
  | cons hc _ ih => rw [List.countP_cons, List.countP_cons, ih, hc.champ]

theorem Stronger.unitPow_le (h : Stronger l l') (k : ℕ) :
    topSum k (l.map (contribution d)) ≤ topSum k (l'.map (contribution d)) := by
  obtain ⟨s, hbelow, r, hperm, hsub⟩ := h
  refine topSum_mono (s := s.map (contribution d)) ?_ ⟨r.map _, hperm.map _, hsub.map _⟩ ?_ k
  · rw [List.forall₂_map_left_iff, List.forall₂_map_right_iff]
    exact hbelow.imp fun _ _ hc => hc.contribution_le
  · rintro x hx
    obtain ⟨c, -, rfl⟩ := List.mem_map.mp hx
    exact (contribution_pos d c).le

theorem Stronger.carry_le (h : Stronger l l') : (tally d l).carry ≤ (tally d l').carry := by
  obtain ⟨hone, hall⟩ := (carry_tally_le_iff d l' _).mp le_rfl
  refine (carry_tally_le_iff d l _).mpr ⟨hone, fun c hc => ?_⟩
  obtain ⟨c', hc', hbelow⟩ := h.exists_below hc
  calc carryMult c.champ.costOr c.star
      ≤ carryMult c'.champ.costOr c'.star := by
        rw [hbelow.champ]
        exact carryMult_mono _ hbelow.star
    _ ≤ (tally d l').carry := hall c' hc'

theorem one_le_carry (d : BuilderData) (l : List Fielded) : 1 ≤ (tally d l).carry :=
  ((carry_tally_le_iff d l _).mp le_rfl).1

/-- The champions seen are among those seen. -/
theorem Stronger.seen_subperm (h : Stronger l l') :
    (tally d l).seen.Subperm (tally d l').seen := by
  obtain ⟨hnodup, hmem⟩ := seen_tally d l
  refine hnodup.subperm fun id hid => ((seen_tally d l').2 id).mpr ?_
  obtain ⟨c, hc, rfl⟩ := List.mem_map.mp ((hmem id).mp hid)
  obtain ⟨c', hc', hbelow⟩ := h.exists_below hc
  exact List.mem_map.mpr ⟨c', hc', by rw [hbelow.champ]⟩

theorem Stronger.traitBoost_le {traitsOf : GoString → List GoString} (h : Stronger l l')
    (hl : TraitsOf traitsOf l) (hl' : TraitsOf traitsOf l') :
    traitBoost d (tally d l).traitCount ≤ traitBoost d (tally d l').traitCount := by
  rw [traitCount_tally hl, traitCount_tally hl']
  refine traitBoost_mono d ?_
  obtain ⟨r, hperm, hsub⟩ := h.seen_subperm (d := d)
  exact ⟨r.flatMap traitsOf, hperm.flatMap_right _, hsub.flatMap _⟩

/-- The score of a board with units, factor by factor. -/
theorem scoreBoard_total (h : l ≠ []) :
    (scoreBoard d l).total = topSum boardCap (l.map (contribution d))
      * (1 + traitBoost d (tally d l).traitCount)
      * (1 + min (15 / 100) ((min (tally d l).front (tally d l).back : ℕ) * (4 / 100) : ℚ))
      * (tally d l).carry := by
  rw [scoreBoard, if_neg h, ← contributions_tally]

theorem scoreBoard_nil (d : BuilderData) : (scoreBoard d []).total = 0 := rfl

theorem unitPow_nonneg (d : BuilderData) (l : List Fielded) :
    0 ≤ topSum boardCap (l.map (contribution d)) := by
  refine topSum_nonneg (fun x hx => ?_) _
  obtain ⟨c, -, rfl⟩ := List.mem_map.mp hx
  exact (contribution_pos d c).le

theorem traitBoost_tally_nonneg {traitsOf : GoString → List GoString} (hl : TraitsOf traitsOf l) :
    0 ≤ traitBoost d (tally d l).traitCount := by
  rw [traitCount_tally hl]
  exact traitBoost_nonneg d _

theorem scoreBoard_nonneg {traitsOf : GoString → List GoString} (hl : TraitsOf traitsOf l) :
    0 ≤ (scoreBoard d l).total := by
  by_cases h : l = []
  · rw [h, scoreBoard_nil]
  · rw [scoreBoard_total h]
    have hpow := unitPow_nonneg d l
    have hboost := traitBoost_tally_nonneg (d := d) hl
    have hcarry : 0 ≤ (tally d l).carry := zero_le_one.trans (one_le_carry d l)
    positivity

/-- **A stronger board scores no less.** -/
theorem Stronger.total_le {traitsOf : GoString → List GoString} (h : Stronger l l')
    (hl : TraitsOf traitsOf l) (hl' : TraitsOf traitsOf l') :
    (scoreBoard d l).total ≤ (scoreBoard d l').total := by
  by_cases hne : l = []
  · rw [hne, scoreBoard_nil]
    exact scoreBoard_nonneg hl'
  have hne' : l' ≠ [] := by
    obtain ⟨c, hc⟩ := List.exists_mem_of_ne_nil l hne
    obtain ⟨c', hc', -⟩ := h.exists_below hc
    exact List.ne_nil_of_mem hc'
  have hpow := h.unitPow_le (d := d) boardCap
  have hboost := h.traitBoost_le (d := d) hl hl'
  have hcarry := h.carry_le (d := d)
  have hfront : (tally d l).front ≤ (tally d l').front := by
    rw [front_tally, front_tally]
    exact h.countP_le fun c => c.traits.any (· ∈ frontline)
  have hback : (tally d l).back ≤ (tally d l').back := by
    rw [back_tally, back_tally]
    exact h.countP_le fun c => c.traits.any (· ∈ backline)
  have hpow' := unitPow_nonneg d l'
  have hpos := traitBoost_tally_nonneg (d := d) hl
  have hpos' := hpos.trans hboost
  have hcarry' : 0 ≤ (tally d l).carry := zero_le_one.trans (one_le_carry d l)
  rw [scoreBoard_total hne, scoreBoard_total hne']
  gcongr

end Dashboard

end TftAnalytics

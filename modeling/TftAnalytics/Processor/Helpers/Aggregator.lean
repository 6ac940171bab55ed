import TftAnalytics.Processor.Model.Contribution
/-!
# Processor — the loops of the aggregator

Helper layer. What a loop of `process_match` adds to the dictionaries is a
list of pairs and a list of boards, and these are joined as the loops are
nested. The items already seen on a board are carried along: of the items
of the rest of it, those are new that are not among them.
-/

namespace TftAnalytics

namespace Processor

/-! ## The carry -/

section

variable {cost : GoString → ℕ} {u v w : MatchUnit}

theorem carryLt_iff : carryLt cost u v = true ↔ u.items.length < v.items.length ∨
    (u.items.length = v.items.length ∧ (cost u.characterId < cost v.characterId ∨
      (cost u.characterId = cost v.characterId ∧ u.characterId < v.characterId))) := by
  simp [carryLt]

/-- Of two units one is before the other, or they are alike. -/
theorem carryLt_trichotomy (cost : GoString → ℕ) (u v : MatchUnit) :
    carryLt cost u v = true ∨ carryLt cost v u = true ∨
      (u.items.length = v.items.length ∧ u.characterId = v.characterId) := by
  rw [carryLt_iff, carryLt_iff]
  rcases lt_trichotomy u.items.length v.items.length with hlt | heq | hgt
  · exact .inl (.inl hlt)
  · rcases lt_trichotomy (cost u.characterId) (cost v.characterId) with hlt | hcost | hgt
    · exact .inl (.inr ⟨heq, .inl hlt⟩)
    · by_cases hid : u.characterId < v.characterId
      · exact .inl (.inr ⟨heq, .inr ⟨hcost, hid⟩⟩)
      · by_cases hid' : v.characterId < u.characterId
        · exact .inr (.inl (.inr ⟨heq.symm, .inr ⟨hcost.symm, hid'⟩⟩))
        · exact .inr (.inr ⟨heq, List.le_antisymm (List.not_lt.mp hid') (List.not_lt.mp hid)⟩)
    · exact .inr (.inl (.inr ⟨heq.symm, .inl hgt⟩))
  · exact .inr (.inl (.inl hgt))

theorem carryLt_trans (h : carryLt cost u v = true) (h' : carryLt cost v w = true) :
    carryLt cost u w = true := by
  rw [carryLt_iff] at h h' ⊢
  rcases h with hlt | ⟨hlen, hlt | ⟨hcost, hid⟩⟩ <;>
    rcases h' with hlt' | ⟨hlen', hlt' | ⟨hcost', hid'⟩⟩ <;>
    first
    | exact .inl (by omega)
    | exact .inr ⟨by omega, .inl (by omega)⟩
    | exact .inr ⟨by omega, .inr ⟨by omega, List.lt_trans hid hid'⟩⟩

theorem carryLt_irrefl (cost : GoString → ℕ) (u : MatchUnit) : carryLt cost u u ≠ true := by
  rw [ne_eq, carryLt_iff]
  rintro (hlt | ⟨-, hlt | ⟨-, hlt⟩⟩)
  · omega
  · omega
  · exact List.lt_irrefl _ hlt

/-- **The carry is a unit of the board**, and none is above it. -/
theorem carry_spec (cost : GoString → ℕ) (first : MatchUnit) (rest : List MatchUnit) :
    carry cost first rest ∈ first :: rest ∧
      ∀ u ∈ first :: rest, carryLt cost (carry cost first rest) u ≠ true := by
  induction rest generalizing first with
  | nil =>
    refine ⟨List.mem_singleton_self _, fun u hu hlt => ?_⟩
    rw [List.mem_singleton.mp hu] at hlt
    exact carryLt_irrefl cost first hlt
  | cons v rest ih =>
    by_cases hv : carryLt cost first v = true
    · have hcarry : carry cost first (v :: rest) = carry cost v rest := by
        rw [carry, List.foldl_cons, if_pos hv]
        rfl
      obtain ⟨hmem, hmax⟩ := ih v
      rw [hcarry]
      refine ⟨List.mem_cons_of_mem _ hmem, List.forall_mem_cons.mpr ⟨fun hlt => ?_, hmax⟩⟩
      exact hmax v (List.mem_cons_self ..) (carryLt_trans hlt hv)
    · have hcarry : carry cost first (v :: rest) = carry cost first rest := by
        rw [carry, List.foldl_cons, if_neg hv]
        rfl
      obtain ⟨hmem, hmax⟩ := ih first
      obtain ⟨hfirst, hrest⟩ := List.forall_mem_cons.mp hmax
      rw [hcarry]
      have hv' : carryLt cost (carry cost first rest) v ≠ true := by
        intro hlt
        -- `v` is not above `first`
        rcases carryLt_trichotomy cost first v with h | h | ⟨hlen, hid⟩
        · exact hv h
        · exact hfirst (carryLt_trans hlt h)
        · rw [carryLt_iff, ← hlen, ← hid, ← carryLt_iff] at hlt
          exact hfirst hlt
      refine ⟨?_, List.forall_mem_cons.mpr ⟨hfirst, List.forall_mem_cons.mpr ⟨hv', hrest⟩⟩⟩
      rcases List.mem_cons.mp hmem with heq | hmem
      · exact List.mem_cons.mpr (.inl heq)
      · exact List.mem_cons_of_mem _ (List.mem_cons_of_mem _ hmem)

/-- **The composition does not depend on the order of the units.** -/
theorem compositionLabel_perm (cost : GoString → ℕ) {us vs : List MatchUnit} (h : us.Perm vs) :
    compositionLabel cost us = compositionLabel cost vs := by
  rcases us with - | ⟨u, us⟩
  · rw [List.nil_perm.mp h]
  · rcases vs with - | ⟨v, vs⟩
    · exact absurd h.length_eq (by simp)
    · obtain ⟨hmem, hmax⟩ := carry_spec cost u us
      obtain ⟨hmem', hmax'⟩ := carry_spec cost v vs
      have hfives := h.countP_eq fun x => decide (5 ≤ cost x.characterId)
      -- neither carry is above the other
      rcases carryLt_trichotomy cost (carry cost u us) (carry cost v vs) with
        hlt | hlt | ⟨hlen, hid⟩
      · exact absurd hlt (hmax _ (h.mem_iff.mpr hmem'))
      · exact absurd hlt (hmax' _ (h.mem_iff.mp hmem))
      · simp only [compositionLabel, hlen, hid, hfives]

end

namespace StatAggregator

variable {agg agg₁ agg₂ : StatAggregator} {ps qs : List (StatKey × Int32)} {ss ts : List Slice}

/-- **What has been added** between two states: contributions in some
order, and boards. -/
structure Adds (agg agg₁ : StatAggregator) (ps : List (StatKey × Int32)) (ss : List Slice) :
    Prop where
  buffers : ∃ qs, qs.Perm ps ∧ agg₁.buffers = gather [] (fun xs x => xs ++ [x]) qs agg.buffers
  totals : agg₁.totals = gather 0 (fun n _ => n + 1) (ss.map fun s => (s, ())) agg.totals

theorem Adds.refl (agg : StatAggregator) : Adds agg agg [] [] := ⟨⟨[], .refl _, rfl⟩, rfl⟩

theorem Adds.trans (h : Adds agg agg₁ ps ss) (h' : Adds agg₁ agg₂ qs ts) :
    Adds agg agg₂ (ps ++ qs) (ss ++ ts) := by
  obtain ⟨ps', hps, hbuffers⟩ := h.buffers
  obtain ⟨qs', hqs, hbuffers'⟩ := h'.buffers
  refine ⟨⟨ps' ++ qs', hps.append hqs, ?_⟩, ?_⟩
  · rw [gather_append, ← hbuffers, hbuffers']
  · rw [List.map_append, gather_append, ← h.totals, h'.totals]

theorem Adds.perm (h : Adds agg agg₁ ps ss) (hperm : ps.Perm qs) : Adds agg agg₁ qs ss := by
  obtain ⟨ps', hps, hbuffers⟩ := h.buffers
  exact ⟨⟨ps', hps.trans hperm, hbuffers⟩, h.totals⟩

theorem adds_add (agg : StatAggregator) (key : StatKey) (placement : Int32) :
    Adds agg (agg.add key placement) [(key, placement)] [] :=
  ⟨⟨[(key, placement)], .refl _, rfl⟩, rfl⟩

/-- **A loop adds what its turns add.** -/
theorem Adds.foldl {α : Type} {body : StatAggregator → α → StatAggregator}
    {add : α → List (StatKey × Int32)} {count : α → List Slice}
    (hbody : ∀ agg x, Adds agg (body agg x) (add x) (count x)) (l : List α)
    (agg : StatAggregator) : Adds agg (l.foldl body agg) (l.flatMap add) (l.flatMap count) := by
  induction l generalizing agg with
  | nil => exact .refl agg
  | cons x l ih => exact (hbody agg x).trans (ih _)

/-! ## The items of a board -/

/-- **What the loops over units and items add**: the contributions to other
keys, and one for each item not seen before. -/
def AddsItems (slice : Slice) (placement : Int32) (acc acc₁ : StatAggregator × List GoString)
    (keys : List StatKey) (items : List GoString) : Prop :=
  (∀ x, x ∈ acc₁.2 ↔ x ∈ acc.2 ∨ x ∈ items) ∧
    ∃ new : List GoString, new.Nodup ∧ (∀ x, x ∈ new ↔ x ∈ items ∧ x ∉ acc.2) ∧
      Adds acc.1 acc₁.1
        ((keys ++ new.map (itemKey slice)).map fun key => (key, placement)) []

section

variable {slice : Slice} {placement : Int32} {acc acc₁ acc₂ : StatAggregator × List GoString}
variable {keys keys' : List StatKey} {items items' : List GoString}

theorem AddsItems.trans (h : AddsItems slice placement acc acc₁ keys items)
    (h' : AddsItems slice placement acc₁ acc₂ keys' items') :
    AddsItems slice placement acc acc₂ (keys ++ keys') (items ++ items') := by
  obtain ⟨hseen, new, hnodup, hnew, hadds⟩ := h
  obtain ⟨hseen', new', hnodup', hnew', hadds'⟩ := h'
  refine ⟨fun x => ?_, new ++ new', ?_, fun x => ?_, (hadds.trans hadds').perm ?_⟩
  · rw [hseen', hseen, List.mem_append, or_assoc]
  · -- what is new later has not been seen before
    refine List.nodup_append'.mpr ⟨hnodup, hnodup', fun x hx hx' => ?_⟩
    exact ((hnew' x).mp hx').2 ((hseen x).mpr (.inr ((hnew x).mp hx).1))
  · rw [List.mem_append, List.mem_append, hnew, hnew', hseen]
    tauto
  · have hitems : (new ++ new').map (itemKey slice)
        = new.map (itemKey slice) ++ new'.map (itemKey slice) := List.map_append
    rw [hitems, ← List.map_append]
    refine List.Perm.map _ ?_
    rw [List.append_assoc, List.append_assoc]
    refine List.Perm.append_left _ ?_
    rw [← List.append_assoc, ← List.append_assoc]
    exact List.perm_append_comm.append_right _

theorem AddsItems.foldl {α : Type}
    {body : StatAggregator × List GoString → α → StatAggregator × List GoString}
    {add : α → List StatKey} {its : α → List GoString}
    (hbody : ∀ acc x, AddsItems slice placement acc (body acc x) (add x) (its x)) (l : List α)
    (acc : StatAggregator × List GoString) :
    AddsItems slice placement acc (l.foldl body acc) (l.flatMap add) (l.flatMap its) := by
  induction l generalizing acc with
  | nil => exact ⟨by simp, [], List.nodup_nil, by simp, .refl _⟩
  | cons x l ih => exact (hbody acc x).trans (ih _)

theorem addsItems_addItem (acc : StatAggregator × List GoString) (unit : MatchUnit)
    (item : GoString) :
    AddsItems slice placement acc (addItem slice placement unit acc item)
      [pairKey slice unit item] [item] := by
  unfold addItem
  by_cases hseen : item ∈ acc.2
  · rw [if_pos hseen]
    refine ⟨fun x => ?_, [], List.nodup_nil, fun x => ?_, adds_add ..⟩
    · rw [List.mem_singleton]
      exact ⟨.inl, fun h => h.elim id fun hx => hx ▸ hseen⟩
    · rw [List.mem_singleton]
      exact ⟨fun hx => absurd hx List.not_mem_nil, fun h => absurd (h.1 ▸ hseen) h.2⟩
  · rw [if_neg hseen]
    refine ⟨fun x => ?_, [item], List.nodup_singleton _, fun x => ?_,
      (adds_add ..).trans (adds_add ..)⟩
    · rw [List.mem_cons, List.mem_singleton, or_comm]
    · rw [List.mem_singleton]
      exact ⟨fun hx => ⟨hx, hx ▸ hseen⟩, fun h => h.1⟩

theorem addsItems_addUnit (acc : StatAggregator × List GoString) (unit : MatchUnit) :
    AddsItems slice placement acc (addUnit slice placement acc unit)
      (⟨unit.characterId, .champion, slice⟩ :: unit.items.map (pairKey slice unit))
      unit.items := by
  have hchampion : AddsItems slice placement acc
      (acc.1.add ⟨unit.characterId, .champion, slice⟩ placement, acc.2)
      [⟨unit.characterId, .champion, slice⟩] [] :=
    ⟨by simp, [], List.nodup_nil, by simp, adds_add ..⟩
  have hitems : AddsItems slice placement _ _ _ _ :=
    AddsItems.foldl (fun acc item => addsItems_addItem acc unit item) unit.items
      (acc.1.add ⟨unit.characterId, .champion, slice⟩ placement, acc.2)
  rw [← List.map_eq_flatMap, List.flatMap_singleton'] at hitems
  exact hchampion.trans hitems

/-- **A board adds its keys**, each with its placement, and itself. -/
theorem adds_addBoard (cost : GoString → ℕ) (slice : Slice) (agg : StatAggregator)
    (player : PlayerResult) :
    Adds agg (addBoard cost slice agg player) (player.contributions cost slice) [slice] := by
  have hboard : Adds agg { agg with totals := upsert 0 (· + 1) slice agg.totals } [] [slice] :=
    ⟨⟨[], .refl _, rfl⟩, rfl⟩
  have hunits : AddsItems slice player.placement _ _ _ _ :=
    AddsItems.foldl addsItems_addUnit player.units
      ({ agg with totals := upsert 0 (· + 1) slice agg.totals }, [])
  obtain ⟨-, new, hnodup, hnew, hunits⟩ := hunits
  have haugments := Adds.foldl
    (fun agg augment => adds_add agg ⟨augment, .augment, slice⟩ player.placement) player.augments
    (player.units.foldl (addUnit slice player.placement)
      ({ agg with totals := upsert 0 (· + 1) slice agg.totals }, [])).1
  have hlabel := adds_add (player.augments.foldl
      (fun agg augment => agg.add ⟨augment, .augment, slice⟩ player.placement)
      (player.units.foldl (addUnit slice player.placement)
        ({ agg with totals := upsert 0 (· + 1) slice agg.totals }, [])).1)
    ⟨compositionLabel cost player.units, .composition, slice⟩ player.placement
  have hall := ((hboard.trans hunits).trans haugments).trans hlabel
  have hslices : (([slice] ++ []) ++ player.augments.flatMap fun _ => ([] : List Slice)) ++ []
      = [slice] := by simp
  rw [hslices] at hall
  refine hall.perm ?_
  -- the same keys, the champions and pairs unit by unit
  have hitems : new.Perm (player.units.flatMap (·.items)).dedup :=
    (List.perm_ext_iff_of_nodup hnodup (List.nodup_dedup _)).mpr fun x => by
      rw [hnew, List.mem_dedup, and_iff_left List.not_mem_nil]
  have hkeys := List.map_append_flatMap_perm player.units
    (fun unit => (⟨unit.characterId, .champion, slice⟩ : StatKey))
    fun unit => unit.items.map (pairKey slice unit)
  have hplaced := (hkeys.symm.append (hitems.map (itemKey slice))).map
    fun key => (key, player.placement)
  rw [List.nil_append, ← List.map_eq_flatMap, PlayerResult.contributions, PlayerResult.keys]
  simp only [List.map_append, List.map_map] at hplaced ⊢
  exact (hplaced.append_right _).append_right _

theorem adds_processMatch (cost : GoString → ℕ) (agg : StatAggregator) (m : MatchEvent) :
    Adds agg (processMatch cost agg m) (m.players.flatMap (·.contributions cost m.slice))
      (m.players.map fun _ => m.slice) := by
  have hplayers := Adds.foldl (adds_addBoard cost m.slice) m.players agg
  rw [← List.map_eq_flatMap] at hplayers
  exact ⟨hplayers.buffers, hplayers.totals⟩

/-- **A batch adds its contributions and its boards.** -/
theorem adds_processBatch (cost : GoString → ℕ) (batch : List MatchEvent) :
    Adds new (new.processBatch cost batch) (contributions cost batch) (boards batch) := by
  have hmatches := Adds.foldl (adds_processMatch cost) batch new
  have hcontributions : contributions cost batch
      = batch.flatMap fun m => m.players.flatMap (·.contributions cost m.slice) := by
    unfold contributions seated
    rw [List.flatMap_assoc]
    simp only [List.flatMap_map]
  have hboards : boards batch = batch.flatMap fun m => m.players.map fun _ => m.slice := by
    unfold boards seated
    rw [List.map_flatMap]
    simp only [List.map_map, Function.comp_def]
  rw [hcontributions, hboards]
  exact hmatches

end

end StatAggregator

end Processor

end TftAnalytics

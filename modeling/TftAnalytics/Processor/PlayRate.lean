import TftAnalytics.Processor.Aggregation
/-!
# Processor — what a play rate is a fraction of

The docstring of the aggregator divides by the player boards of a slice.
An item is counted once per board, a champion once per unit and an augment
once per listing, so that the quotient is a fraction of the boards exactly
where no board has a champion or an augment twice. Elsewhere it is a
number that the bound at one makes look like one.
-/

namespace TftAnalytics

namespace Processor

variable {cost : GoString → ℕ} {batch : List MatchEvent}

/-- How often a board counts for an entity. -/
def PlayerResult.occurrences (player : PlayerResult) : EntityType → GoString → ℕ
  | .champion, id => (player.units.map (·.characterId)).count id
  | .item, id => (player.units.flatMap (·.items)).dedup.count id
  | .augment, id => player.augments.count id
  | _, _ => 0

/-- A board that has an entity at least once. -/
def PlayerResult.Has (player : PlayerResult) : EntityType → GoString → Prop
  | .champion, id => ∃ unit ∈ player.units, unit.characterId = id
  | .item, id => ∃ unit ∈ player.units, id ∈ unit.items
  | .augment, id => id ∈ player.augments
  | _, _ => False

instance PlayerResult.decidableHas (player : PlayerResult) (t : EntityType) (id : GoString) :
    Decidable (player.Has t id) := by
  cases t <;> unfold PlayerResult.Has <;> infer_instance

/-- An entry of one entity of a board: a champion, an item or an augment. -/
def EntityType.Single : EntityType → Prop
  | .champion | .item | .augment => True
  | .championItem | .composition => False

/-- The boards of the slice of a key that have its entity. -/
def boardsWith (batch : List MatchEvent) (key : StatKey) : ℕ :=
  (seated batch).countP fun b => b.1 = key.slice ∧ b.2.Has key.entityType key.entityId

/-- **A fraction of boards**: as many samples as boards with the entity,
and so no more than boards, and the rate is their quotient. -/
structure FractionOfBoards (batch : List MatchEvent) (s : Stat) : Prop where
  samples : s.sampleSize = boardsWith batch s.key
  bounded : s.sampleSize ≤ (boards batch).count s.key.slice
  rate : s.playRate = s.sampleSize / (boards batch).count s.key.slice

/-- A board has an entity it counts for. -/
theorem occurrences_pos {t : EntityType} (ht : t.Single) (player : PlayerResult) (id : GoString) :
    0 < player.occurrences t id ↔ player.Has t id := by
  cases t with
  | champion => simp [PlayerResult.occurrences, PlayerResult.Has, List.count_pos_iff]
  | item => simp [PlayerResult.occurrences, PlayerResult.Has, List.count_pos_iff]
  | augment => simp [PlayerResult.occurrences, PlayerResult.Has, List.count_pos_iff]
  | championItem => cases ht
  | composition => cases ht

/-- Keys of one type, counted. -/
theorem count_map_key (ids : List GoString) (t : EntityType) (slice : Slice) (key : StatKey) :
    (ids.map fun id => (⟨id, t, slice⟩ : StatKey)).count key
      = if t = key.entityType ∧ slice = key.slice then ids.count key.entityId else 0 := by
  induction ids with
  | nil => simp
  | cons id ids ih =>
    have hkey : (⟨id, t, slice⟩ : StatKey) = key ↔
        id = key.entityId ∧ t = key.entityType ∧ slice = key.slice := StatKey.ext_iff
    rw [List.map_cons, List.count_cons, ih, List.count_cons]
    simp only [beq_iff_eq, hkey]
    by_cases hsame : t = key.entityType ∧ slice = key.slice
    · simp [hsame]
    · simp [hsame]

/-- **The keys of a board**, counted. -/
theorem count_keys (cost : GoString → ℕ) (player : PlayerResult) (slice : Slice) {key : StatKey}
    (ht : key.entityType.Single) :
    (player.keys cost slice).count key
      = if slice = key.slice then player.occurrences key.entityType key.entityId else 0 := by
  have hchampions : (player.units.map fun unit =>
      (⟨unit.characterId, .champion, slice⟩ : StatKey)).count key
        = if .champion = key.entityType ∧ slice = key.slice
          then (player.units.map (·.characterId)).count key.entityId else 0 := by
    rw [← count_map_key, List.map_map]
    rfl
  have hitems : ((player.units.flatMap (·.items)).dedup.map (itemKey slice)).count key
      = if .item = key.entityType ∧ slice = key.slice
        then (player.units.flatMap (·.items)).dedup.count key.entityId else 0 := count_map_key ..
  have haugments := count_map_key player.augments .augment slice key
  have hlabel := count_map_key [compositionLabel cost player.units] .composition slice key
  have hpairs : (player.units.flatMap fun u => u.items.map (pairKey slice u)).count key = 0 := by
    rw [List.count_eq_zero, List.mem_flatMap]
    rintro ⟨u, -, hu⟩
    obtain ⟨item, -, rfl⟩ := List.mem_map.mp hu
    exact ht
  rw [List.map_singleton] at hlabel
  rw [PlayerResult.keys, List.count_append, List.count_append, List.count_append,
    List.count_append, hchampions, hpairs, hitems, haugments, hlabel]
  -- one of the lists is of the type of the key
  obtain ⟨id, t, slice'⟩ := key
  cases t with
  | champion => simp [PlayerResult.occurrences]
  | item => simp [PlayerResult.occurrences]
  | augment => simp [PlayerResult.occurrences]
  | championItem => cases ht
  | composition => cases ht

/-- The samples of an entry, board by board. -/
theorem count_contributions (cost : GoString → ℕ) (batch : List MatchEvent) {key : StatKey}
    (ht : key.entityType.Single) :
    ((contributions cost batch).map Prod.fst).count key = ((seated batch).map fun b =>
      if b.1 = key.slice then b.2.occurrences key.entityType key.entityId else 0).sum := by
  rw [map_fst_contributions, List.count_flatMap]
  refine congrArg List.sum (List.map_congr_left fun b _ => ?_)
  exact count_keys cost b.2 b.1 ht

/-- The boards with an entity, board by board. -/
theorem boardsWith_eq_sum (batch : List MatchEvent) (key : StatKey) :
    boardsWith batch key = ((seated batch).map fun b =>
      if b.1 = key.slice ∧ b.2.Has key.entityType key.entityId then 1 else 0).sum := by
  unfold boardsWith
  induction seated batch with
  | nil => rfl
  | cons b bs ih =>
    rw [List.countP_cons, ih, List.map_cons, List.sum_cons, add_comm]
    simp only [decide_eq_true_eq]

/-- Sums of which one is bounded by the other term by term are equal just
when the terms are. -/
theorem sum_eq_iff {α : Type} {f g : α → ℕ} (hle : ∀ x, g x ≤ f x) (l : List α) :
    (l.map f).sum = (l.map g).sum ↔ ∀ x ∈ l, f x = g x := by
  induction l with
  | nil => simp
  | cons x l ih =>
    have hrest : (l.map g).sum ≤ (l.map f).sum := List.sum_le_sum fun x _ => hle x
    have hhead := hle x
    rw [List.map_cons, List.map_cons, List.sum_cons, List.sum_cons, List.forall_mem_cons, ← ih]
    omega

/-- **An entry counts boards just when no board counts for it twice.** -/
theorem samples_eq_iff (cost : GoString → ℕ) (batch : List MatchEvent) {key : StatKey}
    (ht : key.entityType.Single) :
    ((contributions cost batch).map Prod.fst).count key = boardsWith batch key ↔
      ∀ b ∈ seated batch, b.1 = key.slice →
        b.2.occurrences key.entityType key.entityId ≤ 1 := by
  rw [count_contributions cost batch ht, boardsWith_eq_sum, sum_eq_iff]
  · refine forall₂_congr fun b _ => ?_
    have hpos := occurrences_pos ht b.2 key.entityId
    by_cases hslice : b.1 = key.slice
    · by_cases hhas : b.2.Has key.entityType key.entityId
      · have := hpos.mpr hhas
        simp only [hslice, hhas, and_self, if_true, forall_const]
        omega
      · have := mt hpos.mp hhas
        simp only [hslice, hhas, and_false, if_true, if_false, forall_const]
        omega
    · simp [hslice]
  · intro b
    have hpos := occurrences_pos ht b.2 key.entityId
    split_ifs with hboth hslice
    · exact hpos.mpr hboth.2
    · exact absurd hboth.1 hslice
    · exact Nat.zero_le _
    · exact le_rfl

/-- An entry of a flush is the stats of a key that occurs. -/
theorem mem_aggregated {s : Stat} : s ∈ aggregated cost batch ↔
    ∃ key ∈ (contributions cost batch).map Prod.fst, statOf key
      (valuesAt (contributions cost batch) key) ((boards batch).count key.slice) = s := by
  rw [(aggregated_perm cost batch).mem_iff, specification, List.mem_map]
  simp only [List.mem_dedup]

/-- No more boards have an entity than there are. -/
theorem boardsWith_le (batch : List MatchEvent) (key : StatKey) :
    boardsWith batch key ≤ (boards batch).count key.slice := by
  rw [boardsWith, boards, List.count, List.countP_map]
  refine List.countP_mono_left fun b _ hb => ?_
  exact beq_iff_eq.mpr (of_decide_eq_true hb).1

/-- **Play rates are fractions of boards exactly where no board has a
champion or an augment twice.** -/
theorem fraction_iff_distinct (cost : GoString → ℕ) (batch : List MatchEvent) :
    (∀ s ∈ aggregated cost batch, s.key.entityType.Single → FractionOfBoards batch s) ↔
      ∀ m ∈ batch, ∀ player ∈ m.players,
        (player.units.map (·.characterId)).Nodup ∧ player.augments.Nodup := by
  constructor
  · intro hall m hm player hplayer
    have hseated : (m.slice, player) ∈ seated batch :=
      List.mem_flatMap.mpr ⟨m, hm, List.mem_map_of_mem hplayer⟩
    -- an entity the board counts for has an entry
    have honce : ∀ t : EntityType, t.Single → ∀ id, player.occurrences t id ≤ 1 := by
      intro t ht id
      by_contra hmore
      have hkey : (⟨id, t, m.slice⟩ : StatKey) ∈ (contributions cost batch).map Prod.fst := by
        rw [map_fst_contributions]
        refine List.mem_flatMap.mpr ⟨_, hseated, List.count_pos_iff.mp ?_⟩
        rw [count_keys cost player m.slice ht, if_pos rfl]
        show 0 < player.occurrences t id
        omega
      have hsamples := (hall _ (mem_aggregated.mpr ⟨_, hkey, rfl⟩) ht).samples
      simp only [statOf, length_valuesAt] at hsamples
      exact hmore ((samples_eq_iff cost batch ht).mp hsamples _ hseated rfl)
    exact ⟨List.nodup_iff_count_le_one.mpr (honce .champion trivial),
      List.nodup_iff_count_le_one.mpr (honce .augment trivial)⟩
  · intro hdistinct s hs ht
    obtain ⟨key, -, rfl⟩ := mem_aggregated.mp hs
    have ht : key.entityType.Single := ht
    have hsamples : ((contributions cost batch).map Prod.fst).count key
        = boardsWith batch key := by
      refine (samples_eq_iff cost batch ht).mpr fun b hb _ => ?_
      obtain ⟨m, hm, hb⟩ := List.mem_flatMap.mp hb
      obtain ⟨player, hplayer, rfl⟩ := List.mem_map.mp hb
      obtain ⟨hunits, haugments⟩ := hdistinct m hm player hplayer
      obtain ⟨id, t, slice⟩ := key
      cases t with
      | champion => exact List.nodup_iff_count_le_one.mp hunits id
      | item => exact List.nodup_iff_count_le_one.mp (List.nodup_dedup _) id
      | augment => exact List.nodup_iff_count_le_one.mp haugments id
      | championItem => cases ht
      | composition => cases ht
    have hle : (valuesAt (contributions cost batch) key).length
        ≤ (boards batch).count key.slice := by
      rw [length_valuesAt, hsamples]
      exact boardsWith_le batch key
    refine ⟨(length_valuesAt _ key).trans hsamples, hle, ?_⟩
    exact min_eq_left (div_le_one_of_le₀ (by exact_mod_cast hle) (Nat.cast_nonneg _))

/-- A board with two units of one champion. -/
def twinMatch : MatchEvent :=
  { region := ascii "NA", patch := ascii "14.3", tier := ascii "GOLD", clock := none
    players := [{ placement := 1
                  units := [⟨ascii "TFT_Ahri", []⟩, ⟨ascii "TFT_Ahri", []⟩]
                  augments := [] }] }

/-- Two samples on one board. -/
theorem twins_count_twice : ¬ ∀ (cost : GoString → ℕ) (batch : List MatchEvent),
    ∀ s ∈ aggregated cost batch, s.key.entityType.Single → FractionOfBoards batch s := by
  intro hall
  have hentry : ∃ s ∈ aggregated (fun _ => 4) [twinMatch], s.key.entityType = .champion ∧
      s.sampleSize ≠ boardsWith [twinMatch] s.key := by decide +kernel
  obtain ⟨s, hs, hchampion, hne⟩ := hentry
  exact hne (hall _ _ s hs (by rw [hchampion]; trivial)).samples

end Processor

end TftAnalytics

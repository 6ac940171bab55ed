import TftAnalytics.Api.Model.Service
import TftAnalytics.Common.Grouping
/-!
# API — the row of an entity

What a query finds of an entity depends on the entity's own entries: the
grouping puts these together, in their order, whatever lies between them.
-/

namespace TftAnalytics

namespace Api

open Metastore (StatEntry)

variable {F : Type} (fl : Doubles F) (ref : Reference)

/-- The row that an entity's entries amount to. -/
def rowOf (entries : List StatEntry) (id : GoString) : Option (Row F) :=
  groupRow fl ref (id, entries.filter fun e => e.entityId = id)

/-- The row of an entity among those that are kept: of augments every row,
or a placeholder for one of the reference data; of other types a row with
enough samples. -/
def keptRow (entityType patch : GoString) (entries : List StatEntry) (id : GoString) :
    Option (Row F) :=
  if entityType = ascii "augment" then
    (rowOf fl ref entries id).or <|
      if id ∈ ref.augments then
        some (decorateEntity ref (emptyReferenceEntry fl ref id (ascii "augment") patch))
      else none
  else (rowOf fl ref entries id).filter fun r => minSampleSize ≤ r.sampleSize

variable {fl ref}

@[simp] theorem entityId_decorateEntity (row : Row F) :
    (decorateEntity ref row).entityId = row.entityId := by
  unfold decorateEntity
  split_ifs <;> rfl

@[simp] theorem entityType_decorateEntity (row : Row F) :
    (decorateEntity ref row).entityType = row.entityType := by
  unfold decorateEntity
  split_ifs <;> rfl

/-- A row is decorated once. -/
@[simp] theorem decorateEntity_decorateEntity (row : Row F) :
    decorateEntity ref (decorateEntity ref row) = decorateEntity ref row := by
  by_cases h : row.entityType = ascii "augment" <;> simp [decorateEntity, h]

theorem entityId_groupRow {g : GoString × List StatEntry} {row : Row F}
    (h : groupRow fl ref g = some row) : row.entityId = g.1 := by
  unfold groupRow at h
  split_ifs at h
  obtain ⟨first, -, rfl⟩ := Option.map_eq_some_iff.mp h
  rw [entityId_decorateEntity]
  rfl

theorem decorateEntity_groupRow {g : GoString × List StatEntry} {row : Row F}
    (h : groupRow fl ref g = some row) : decorateEntity ref row = row := by
  unfold groupRow at h
  split_ifs at h
  obtain ⟨first, -, rfl⟩ := Option.map_eq_some_iff.mp h
  exact decorateEntity_decorateEntity _

/-! ## Grouping -/

/-- The entries under their identifiers. -/
theorem groupBy_perm (entries : List StatEntry) :
    (groupBy (·.entityId) entries).Perm
      ((entries.map (·.entityId)).dedup.map fun id =>
        (id, entries.filter fun e => e.entityId = id)) := by
  have hgather : groupBy (·.entityId) entries
      = gather [] (fun es e => es ++ [e]) (entries.map fun e => (e.entityId, e)) [] := by
    unfold groupBy gather
    rw [List.foldl_map]
  have hkeys : (entries.map fun e => (e.entityId, e)).map Prod.fst = entries.map (·.entityId) := by
    rw [List.map_map]
    rfl
  rw [hgather]
  refine (gather_perm _ _ _).trans (List.Perm.of_eq ?_)
  rw [hkeys]
  refine List.map_congr_left fun id _ => ?_
  rw [foldl_concat, valuesAt_map_key]

theorem rowOf_of_not_mem {entries : List StatEntry} {id : GoString}
    (h : id ∉ entries.map (·.entityId)) : rowOf fl ref entries id = none := by
  have hnil : entries.filter (fun e => e.entityId = id) = [] := by
    refine List.filter_eq_nil_iff.mpr fun e he hid => h ?_
    exact List.mem_map.mpr ⟨e, he, of_decide_eq_true hid⟩
  unfold rowOf
  rw [hnil]
  rfl

/-- **The rows are those of the entities**, one for each. -/
theorem aggregateByEntity_perm (entries : List StatEntry) :
    (aggregateByEntity fl ref entries).Perm
      ((entries.map (·.entityId)).dedup.filterMap (rowOf fl ref entries)) := by
  refine ((groupBy_perm entries).filterMap _).trans (List.Perm.of_eq ?_)
  rw [List.filterMap_map]
  rfl

theorem mem_aggregateByEntity {entries : List StatEntry} {row : Row F} :
    row ∈ aggregateByEntity fl ref entries ↔ rowOf fl ref entries row.entityId = some row := by
  rw [(aggregateByEntity_perm entries).mem_iff, List.mem_filterMap]
  constructor
  · rintro ⟨id, -, h⟩
    rw [entityId_groupRow h]
    exact h
  · intro h
    refine ⟨row.entityId, List.mem_dedup.mpr (by_contra fun hnot => ?_), h⟩
    rw [rowOf_of_not_mem hnot] at h
    cases h

/-- Rows that come from different keys have different identifiers. -/
theorem nodup_filterMap {ids : List GoString} {f : GoString → Option (Row F)}
    (hids : ids.Nodup) (hf : ∀ id row, f id = some row → row.entityId = id) :
    ((ids.filterMap f).map (·.entityId)).Nodup := by
  have hsub : ((ids.filterMap f).map (·.entityId)).Sublist ids := by
    induction ids with
    | nil => exact List.Sublist.refl _
    | cons id ids ih =>
      have ih := ih hids.of_cons
      cases h : f id with
      | none =>
        rw [List.filterMap_cons_none h]
        exact ih.cons id
      | some row =>
        rw [List.filterMap_cons_some h, List.map_cons, hf id row h]
        exact ih.cons_cons id
  exact hsub.nodup hids

theorem nodup_aggregateByEntity (entries : List StatEntry) :
    ((aggregateByEntity fl ref entries).map (·.entityId)).Nodup := by
  rw [((aggregateByEntity_perm entries).map _).nodup_iff]
  exact nodup_filterMap (List.nodup_dedup _) fun id row h => entityId_groupRow h

/-- **Filtering commutes with grouping**: the entries of one entity have
its row and no other. -/
theorem aggregateByEntity_filter (entries : List StatEntry) (id : GoString) :
    aggregateByEntity fl ref (entries.filter fun e => e.entityId = id)
      = (rowOf fl ref entries id).toList := by
  have hrow : ∀ row : Row F,
      row ∈ aggregateByEntity fl ref (entries.filter fun e => e.entityId = id)
        ↔ row ∈ (rowOf fl ref entries id).toList := by
    intro row
    rw [mem_aggregateByEntity, Option.mem_toList]
    by_cases hid : row.entityId = id
    · unfold rowOf
      rw [hid, List.filter_filter]
      simp
    · constructor
      · intro h
        rw [rowOf_of_not_mem] at h
        · cases h
        · rintro hmem
          obtain ⟨e, he, heq⟩ := List.mem_map.mp hmem
          exact hid (heq.symm.trans (of_decide_eq_true (List.mem_filter.mp he).2))
      · intro h
        exact absurd (entityId_groupRow h) hid
  have hnodup := (@nodup_aggregateByEntity F fl ref
    (entries.filter fun e => e.entityId = id)).of_map
  cases h : rowOf fl ref entries id with
  | none =>
    rw [h] at hrow
    exact List.eq_nil_iff_forall_not_mem.mpr fun row hmem => by simpa using (hrow row).mp hmem
  | some row =>
    rw [h] at hrow
    exact List.perm_singleton.mp
      ((List.perm_ext_iff_of_nodup hnodup (List.nodup_singleton row)).mpr hrow)

/-! ## The rows that are kept -/

/-- The entries of a tier, or of all tiers. -/
def ofTier (tier : Option GoString) (entries : List StatEntry) : List StatEntry :=
  match tier.filter (· ≠ []) with
  | some tier => entries.filter fun e => e.tier = tier
  | none => entries

/-- The identifier of a placeholder. -/
theorem entityId_placeholder (id patch : GoString) :
    (decorateEntity ref (emptyReferenceEntry fl ref id (ascii "augment") patch)).entityId = id := by
  rw [entityId_decorateEntity]
  rfl

theorem entityId_keptRow {entityType patch : GoString} {entries : List StatEntry} {id : GoString}
    {row : Row F} (h : keptRow fl ref entityType patch entries id = some row) :
    row.entityId = id := by
  unfold keptRow at h
  split_ifs at h with htype hid
  · rcases Option.or_eq_some_iff.mp h with h | ⟨-, h⟩
    · exact entityId_groupRow h
    · obtain rfl := Option.some.inj h
      exact entityId_placeholder id patch
  · rw [Option.or_none] at h
    exact entityId_groupRow h
  · exact entityId_groupRow (Option.filter_eq_some_iff.mp h).1

theorem ofTier_filter (tier : Option GoString) (entries : List StatEntry) (id : GoString) :
    ofTier tier (entries.filter fun e => e.entityId = id)
      = (ofTier tier entries).filter fun e => e.entityId = id := by
  unfold ofTier
  cases tier.filter (· ≠ []) with
  | none => rfl
  | some tier => exact List.filter_comm _ _ _

/-- The answer to a query for an entity, from the rows of its entries. -/
def detailOf (fl : Doubles F) (ref : Reference) (entityType id patch : GoString)
    (rows : List (Row F)) : Detail F :=
  match if entityType ≠ ascii "augment" then
      rows.filter fun r => minSampleSize ≤ r.sampleSize
    else rows with
  | row :: _ => .found (decorateEntity ref row)
  | [] =>
    if entityType = ascii "augment" ∧ id ∈ ref.augments then
      .found (decorateEntity ref (emptyReferenceEntry fl ref id (ascii "augment") patch))
    else .insufficientData id

theorem detailOf_nil (entityType id patch : GoString) :
    detailOf fl ref entityType id patch [] =
      if entityType = ascii "augment" ∧ id ∈ ref.augments then
        .found (decorateEntity ref (emptyReferenceEntry fl ref id (ascii "augment") patch))
      else .insufficientData id := by
  unfold detailOf
  simp

/-- A row that a single entity has is decorated already. -/
theorem detailOf_singleton (entityType id patch : GoString) {row : Row F}
    (hdecorated : decorateEntity ref row = row) :
    detailOf fl ref entityType id patch [row] =
      if entityType ≠ ascii "augment" ∧ row.sampleSize < minSampleSize then .insufficientData id
      else .found row := by
  unfold detailOf
  by_cases htype : entityType = ascii "augment"
  · simp [htype, hdecorated]
  · by_cases hmin : minSampleSize ≤ row.sampleSize
    · simp [htype, hmin, not_lt.mpr hmin, hdecorated]
    · simp [htype, hmin, not_le.mp hmin]

/-- **A single entity is the row that is kept.** -/
theorem getEntity_eq (scan : Scan) (entityType id patch region : GoString)
    (tier : Option GoString) :
    getEntity fl ref scan entityType id patch tier region
      = ((keptRow fl ref entityType patch (ofTier tier (scan entityType patch region)) id).map
          Detail.found).getD (.insufficientData id) := by
  have hquery : getEntity fl ref scan entityType id patch tier region
      = detailOf fl ref entityType id patch (aggregateByEntity fl ref
          (ofTier tier ((scan entityType patch region).filter fun e => e.entityId = id))) := rfl
  rw [hquery, ofTier_filter, aggregateByEntity_filter]
  unfold keptRow
  cases hrow : rowOf fl ref (ofTier tier (scan entityType patch region)) id with
  | none =>
    rw [Option.toList_none, detailOf_nil]
    by_cases htype : entityType = ascii "augment"
    · by_cases hmem : id ∈ ref.augments <;> simp [htype, hmem]
    · simp [htype]
  | some row =>
    rw [Option.toList_some, detailOf_singleton _ _ _ (decorateEntity_groupRow hrow)]
    by_cases htype : entityType = ascii "augment"
    · simp [htype]
    · by_cases hmin : minSampleSize ≤ row.sampleSize
      · simp [htype, hmin, not_lt.mpr hmin, Option.filter_some]
      · simp [htype, hmin, not_le.mp hmin, Option.filter_some]

/-- A list has a row of an entity whose entries amount to one. -/
theorem mem_ids_aggregateByEntity {entries : List StatEntry} {id : GoString} :
    id ∈ (aggregateByEntity fl ref entries).map (·.entityId) ↔ rowOf fl ref entries id ≠ none := by
  rw [List.mem_map]
  constructor
  · rintro ⟨row, hrow, rfl⟩
    rw [mem_aggregateByEntity.mp hrow]
    exact Option.some_ne_none row
  · intro h
    obtain ⟨row, hrow⟩ := Option.ne_none_iff_exists'.mp h
    have hid : row.entityId = id := entityId_groupRow hrow
    subst hid
    exact ⟨row, mem_aggregateByEntity.mpr hrow, rfl⟩

/-- **A list holds the rows that are kept.** -/
theorem mem_keepRows {entityType patch : GoString} {entries : List StatEntry} {row : Row F} :
    row ∈ keepRows fl ref entityType patch none (aggregateByEntity fl ref entries)
      ↔ keptRow fl ref entityType patch entries row.entityId = some row := by
  unfold keepRows keptRow
  by_cases htype : entityType = ascii "augment"
  · rw [if_pos htype, if_pos htype, Option.or_eq_some_iff, ← mem_aggregateByEntity]
    unfold completeReferenceEntities
    rw [if_neg (not_not.mpr htype)]
    refine List.mem_append.trans (or_congr_right ?_)
    -- a placeholder is added where the entries amount to no row
    rw [List.mem_map]
    constructor
    · rintro ⟨id, hid, rfl⟩
      obtain ⟨hmem, hnot⟩ := List.mem_filter.mp hid
      rw [entityId_placeholder, if_pos hmem]
      exact ⟨not_not.mp (mt mem_ids_aggregateByEntity.mpr (of_decide_eq_true hnot)), rfl⟩
    · rintro ⟨hnone, h⟩
      split_ifs at h with hmem
      refine ⟨row.entityId, List.mem_filter.mpr ⟨hmem, decide_eq_true fun hid => ?_⟩,
        Option.some.inj h⟩
      exact mem_ids_aggregateByEntity.mp hid hnone
  · rw [if_neg htype, if_neg htype, List.mem_filter, mem_aggregateByEntity,
      Option.filter_eq_some_iff]

/-! ## Sorting -/

/-- A sort that does not raise returns the rows that it is given. -/
theorem sortRows_perm {sort : GoString} {rows sorted : List (Row F)}
    (h : sortRows fl sort rows = some sorted) : sorted.Perm rows := by
  obtain ⟨keyed, hkeyed, rfl⟩ := Option.map_eq_some_iff.mp h
  refine ((List.perm_insertionSort _ keyed).map _).trans (List.Perm.of_eq ?_)
  clear h
  induction rows generalizing keyed with
  | nil =>
    obtain rfl := Option.some.inj hkeyed
    rfl
  | cons row rows ih =>
    rw [List.mapM_cons] at hkeyed
    simp only [Option.bind_eq_bind, Option.pure_def, Option.bind_eq_some_iff,
      Option.map_eq_some_iff, Option.some.injEq] at hkeyed
    obtain ⟨_, ⟨key, -, rfl⟩, keyed', hrest, rfl⟩ := hkeyed
    rw [List.map_cons, ih keyed' hrest]

/-- Where every row has a key the sort does not raise. -/
theorem sortRows_isSome {sort : GoString} (hkey : ∀ row : Row F, (sortKey fl sort row).isSome)
    (rows : List (Row F)) : (sortRows fl sort rows).isSome := by
  unfold sortRows
  rw [Option.isSome_map]
  induction rows with
  | nil => rfl
  | cons row rows ih =>
    obtain ⟨key, hrow⟩ := Option.isSome_iff_exists.mp (hkey row)
    obtain ⟨keyed, hrows⟩ := Option.isSome_iff_exists.mp ih
    rw [List.mapM_cons, hrow, hrows]
    rfl

/-- The win rate is a number of every row. -/
theorem isSome_sortKey_winRate (row : Row F) : (sortKey fl (ascii "win_rate") row).isSome := by
  have hvalue : sortValue (ascii "win_rate") row = some (.float row.winRate) := by
    unfold sortValue
    rw [if_neg (by decide), if_neg (by decide), if_neg (by decide), if_neg (by decide), if_neg]
    rintro ⟨h, -⟩
    exact absurd h (by decide)
  unfold sortKey
  rw [hvalue]
  rfl

/-- A list is the rows that are kept, sorted and cut. -/
theorem listEntities_eq (scan : Scan) (entityType patch region : GoString)
    (tier : Option GoString) (limit : ℤ) (sort : GoString) :
    listEntities fl ref scan entityType patch region tier none limit sort none
      = (sortRows fl sort (keepRows fl ref entityType patch none
          (aggregateByEntity fl ref (ofTier tier (scan entityType patch region))))).map
            fun rows => pySlice rows limit := by
  unfold listEntities ofTier selectTiers
  cases tier.filter (· ≠ []) with
  | none => rfl
  | some tier => simp

theorem pySlice_of_length_le {α : Type} {rows : List α} {limit : ℤ}
    (h : (rows.length : ℤ) ≤ limit) : pySlice rows limit = rows := by
  unfold pySlice
  rw [if_pos (by omega), List.take_of_length_le (by omega)]

end Api

end TftAnalytics

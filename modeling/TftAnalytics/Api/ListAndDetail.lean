import TftAnalytics.Api.Helpers.Rows
import TftAnalytics.Api.Model.Augments
/-!
# API — lists and single entities

The list of a type groups all entries, completes the augments and sorts;
a single entity is looked for among its own entries. Both come to one row
for each entity: the row that its entries amount to, or its placeholder,
or none.
-/

namespace TftAnalytics

namespace Api

open Metastore (StatEntry)

variable {F : Type} {fl : Doubles F} {ref : Reference}

theorem nodup_keepRows (haug : ref.augments.Nodup) (entityType patch : GoString)
    (entries : List StatEntry) :
    ((keepRows fl ref entityType patch none (aggregateByEntity fl ref entries)).map
      (·.entityId)).Nodup := by
  have hagg := @nodup_aggregateByEntity F fl ref entries
  by_cases htype : entityType = ascii "augment"
  · have hrows : keepRows fl ref entityType patch none (aggregateByEntity fl ref entries)
        = aggregateByEntity fl ref entries ++ (ref.augments.filter fun id =>
            id ∉ (aggregateByEntity fl ref entries).map (·.entityId)).map fun id =>
          decorateEntity ref (emptyReferenceEntry fl ref id (ascii "augment") patch) := by
      unfold keepRows completeReferenceEntities
      rw [if_pos htype, if_neg (not_not.mpr htype)]
      rfl
    have hids : ∀ ids : List GoString, (ids.map fun id =>
        decorateEntity ref (emptyReferenceEntry fl ref id (ascii "augment") patch)).map
          (·.entityId) = ids := by
      intro ids
      rw [List.map_map]
      exact List.map_id'' (fun id => entityId_placeholder id patch) ids
    rw [hrows, List.map_append, hids]
    refine List.nodup_append'.mpr ⟨hagg, haug.filter _, fun id hid hnot => ?_⟩
    exact of_decide_eq_true (List.mem_filter.mp hnot).2 hid
  · unfold keepRows
    rw [if_neg htype]
    exact (List.filter_sublist.map _).nodup hagg

/-- **Lists and single entities agree.** For every content of the store
and every type, patch, region and tier there are the rows, no two of one
entity, that the list holds where its limit does not cut them, and a
single entity is its row, or short of data where it has none. -/
theorem list_and_detail_agree (fl : Doubles F) (tables : Reference) (scan : Scan)
    (entityType patch region : GoString) (tier : Option GoString) :
    let ref := { tables with augments := augments }
    ∃ rows : List (Row F), (rows.map (·.entityId)).Nodup ∧
      (∀ limit : ℤ, rows.length ≤ limit →
        listEntities fl ref scan entityType patch region tier none limit (ascii "win_rate") none
          = some rows) ∧
      (∀ limit : ℤ, rows.length ≤ limit → ∀ sort,
        ∀ listed ∈ listEntities fl ref scan entityType patch region tier none limit sort none,
          listed.Perm rows) ∧
      (∀ row ∈ rows, getEntity fl ref scan entityType row.entityId patch tier region = .found row) ∧
      ∀ id, id ∉ rows.map (·.entityId) →
        getEntity fl ref scan entityType id patch tier region = .insufficientData id := by
  intro ref
  have haug : ref.augments.Nodup := nodup_augments
  obtain ⟨rows, hsorted⟩ := Option.isSome_iff_exists.mp
    (sortRows_isSome isSome_sortKey_winRate (keepRows fl ref entityType patch none
      (aggregateByEntity fl ref (ofTier tier (scan entityType patch region)))))
  have hperm := sortRows_perm hsorted
  refine ⟨rows, ?_, fun limit hlimit => ?_, fun limit hlimit sort listed hlisted => ?_,
    fun row hrow => ?_, fun id hid => ?_⟩
  · rw [(hperm.map _).nodup_iff]
    exact nodup_keepRows haug _ _ _
  · rw [listEntities_eq, hsorted, Option.map_some, pySlice_of_length_le hlimit]
  · rw [listEntities_eq] at hlisted
    obtain ⟨sorted, hsorted', rfl⟩ := Option.map_eq_some_iff.mp hlisted
    have hsame : sorted.Perm rows := (sortRows_perm hsorted').trans hperm.symm
    rw [pySlice_of_length_le (by rw [hsame.length_eq]; exact hlimit)]
    exact hsame
  · rw [getEntity_eq, mem_keepRows.mp (hperm.mem_iff.mp hrow)]
    rfl
  · rw [getEntity_eq]
    have hnone : keptRow fl ref entityType patch (ofTier tier (scan entityType patch region)) id
        = none := by
      refine Option.eq_none_iff_forall_ne_some.mpr fun row hrow => hid ?_
      have hrowId := entityId_keptRow hrow
      refine List.mem_map.mpr ⟨row, hperm.mem_iff.mpr (mem_keepRows.mpr ?_), hrowId⟩
      rw [hrowId]
      exact hrow
    rw [hnone]
    rfl

end Api

end TftAnalytics

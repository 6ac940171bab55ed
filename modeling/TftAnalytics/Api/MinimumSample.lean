import TftAnalytics.Api.Helpers.Rows
/-!
# API — the minimum sample

Every path to a row checks its samples on its own: the lists and single
entities after they aggregate, the two series when they form a point, the
grid when it fills a cell. The first two let every augment through, so
they serve one with too few samples wherever a selection has one.
-/

namespace TftAnalytics

namespace Api

open Metastore (StatEntry)

variable {F : Type} {fl : Doubles F} {ref : Reference}

/-- A zero-sample placeholder for an augment of the reference data. -/
def IsPlaceholder (fl : Doubles F) (ref : Reference) (row : Row F) : Prop :=
  ∃ id ∈ ref.augments, ∃ patch,
    row = decorateEntity ref (emptyReferenceEntry fl ref id (ascii "augment") patch)

/-- **What may be served** for a type: a row with enough samples; and of
augments a placeholder, or a row with any samples. -/
def Served (fl : Doubles F) (ref : Reference) (entityType : GoString) (row : Row F) : Prop :=
  if entityType = ascii "augment" then IsPlaceholder fl ref row ∨ row.sampleSize ≠ 0
  else minSampleSize ≤ row.sampleSize

@[simp] theorem sampleSize_decorateEntity (ref : Reference) (row : Row F) :
    (decorateEntity ref row).sampleSize = row.sampleSize := by
  unfold decorateEntity
  split_ifs <;> rfl

/-- No row aggregates to zero samples. -/
theorem sampleSize_ne_zero {entries : List StatEntry} {row : Row F}
    (h : row ∈ aggregateByEntity fl ref entries) : row.sampleSize ≠ 0 := by
  obtain ⟨g, -, hg⟩ := List.mem_filterMap.mp h
  unfold groupRow at hg
  split_ifs at hg with hzero
  obtain ⟨first, -, rfl⟩ := Option.map_eq_some_iff.mp hg
  rw [sampleSize_decorateEntity]
  exact hzero

/-- So an aggregated row may be served, where other types than augments are
filtered. -/
theorem served_of_sampleSize {entityType : GoString} {row : Row F} (hne : row.sampleSize ≠ 0)
    (hmin : entityType ≠ ascii "augment" → minSampleSize ≤ row.sampleSize) :
    Served fl ref entityType row := by
  unfold Served
  split_ifs with htype
  · exact Or.inr hne
  · exact hmin htype

/-- What is added to a list for the reference data is placeholders. -/
theorem mem_completeReferenceEntities {entityType patch : GoString} {rows : List (Row F)}
    {row : Row F} (h : row ∈ completeReferenceEntities fl ref entityType rows patch) :
    row ∈ rows ∨ IsPlaceholder fl ref row := by
  unfold completeReferenceEntities at h
  split_ifs at h
  · exact Or.inl h
  · rcases List.mem_append.mp h with h | h
    · exact Or.inl h
    · obtain ⟨id, hid, rfl⟩ := List.mem_map.mp h
      exact Or.inr ⟨id, List.mem_of_mem_filter hid, patch, rfl⟩

theorem mem_of_mem_pySlice {α : Type} {rows : List α} {limit : ℤ} {row : α}
    (h : row ∈ pySlice rows limit) : row ∈ rows :=
  List.mem_of_mem_take h

theorem served_of_mem_keepRows {entityType patch : GoString} {category : Option GoString}
    {entries : List StatEntry} {row : Row F}
    (h : row ∈ keepRows fl ref entityType patch category (aggregateByEntity fl ref entries)) :
    Served fl ref entityType row := by
  unfold keepRows at h
  split_ifs at h with htype
  · have hall : row ∈ completeReferenceEntities fl ref entityType
        (aggregateByEntity fl ref entries) patch := by
      dsimp only at h
      split at h
      · exact List.mem_of_mem_filter h
      · exact h
    rcases mem_completeReferenceEntities hall with hagg | hplaceholder
    · exact served_of_sampleSize (sampleSize_ne_zero hagg) (absurd htype)
    · unfold Served
      rw [if_pos htype]
      exact Or.inl hplaceholder
  · obtain ⟨hagg, hmin⟩ := List.mem_filter.mp h
    exact served_of_sampleSize (sampleSize_ne_zero hagg) fun _ => of_decide_eq_true hmin

/-- **Lists.** -/
theorem served_listEntities {scan : Scan} {entityType patch region : GoString}
    {tier tierRange : Option GoString} {limit : ℤ} {sort : GoString} {category : Option GoString}
    {rows : List (Row F)}
    (h : listEntities fl ref scan entityType patch region tier tierRange limit sort category
      = some rows) {row : Row F} (hrow : row ∈ rows) : Served fl ref entityType row := by
  obtain ⟨sorted, hsorted, rfl⟩ := Option.map_eq_some_iff.mp h
  exact served_of_mem_keepRows ((sortRows_perm hsorted).mem_iff.mp (mem_of_mem_pySlice hrow))

/-- **Single entities.** -/
theorem served_getEntity {scan : Scan} {entityType entityId patch : GoString}
    {tier : Option GoString} {region : GoString} {row : Row F}
    (h : getEntity fl ref scan entityType entityId patch tier region = .found row) :
    Served fl ref entityType row := by
  unfold getEntity at h
  dsimp only at h
  split at h
  · rename_i first rest hrows
    obtain rfl := Detail.found.inj h
    have hfirst := List.mem_cons_self (a := first) (l := rest)
    -- rows of units are filtered by sample size, the others are only aggregated
    rw [← hrows] at hfirst
    split_ifs at hfirst with htype
    · obtain ⟨hagg, hmin⟩ := List.mem_filter.mp hfirst
      refine served_of_sampleSize ?_ fun _ => ?_
      · rw [sampleSize_decorateEntity]
        exact sampleSize_ne_zero hagg
      · rw [sampleSize_decorateEntity]
        exact of_decide_eq_true hmin
    · refine served_of_sampleSize ?_ fun hother => absurd hother htype
      rw [sampleSize_decorateEntity]
      exact sampleSize_ne_zero hfirst
  · split_ifs at h with haug
    obtain rfl := Detail.found.inj h
    unfold Served
    rw [if_pos haug.1]
    exact Or.inl ⟨entityId, haug.2, patch, rfl⟩

/-- **Tiers.** -/
theorem minSampleSize_le_tierPoint {scan : Scan} {entityId patch id : GoString}
    {etype : Option GoString} {points : List (TierPoint F)}
    (h : tierComparison fl ref scan entityId patch = .series id etype points) :
    ∀ p ∈ points, minSampleSize ≤ p.sampleSize := by
  intro p hp
  unfold tierComparison at h
  dsimp only at h
  split_ifs at h
  obtain ⟨-, -, rfl⟩ := Comparison.series.inj h
  obtain ⟨g, -, hg⟩ := List.mem_filterMap.mp ((List.mem_insertionSort _).mp hp)
  unfold tierPoint at hg
  split_ifs at hg with hmin
  obtain rfl := Option.some.inj hg
  exact not_lt.mp hmin

/-- **Patches.** -/
theorem minSampleSize_le_patchPoint {scan : Scan} {entityId : Option GoString} {id : GoString}
    {points : List (PatchPoint F)} (h : patchHistory fl scan entityId = .series id points) :
    ∀ p ∈ points, minSampleSize ≤ p.sampleSize := by
  intro p hp
  unfold patchHistory at h
  dsimp only at h
  split at h
  · cases h
  · obtain ⟨-, rfl⟩ := History.series.inj h
    obtain ⟨g, -, hg⟩ := List.mem_filterMap.mp ((List.mem_insertionSort _).mp hp)
    unfold patchPoint at hg
    split_ifs at hg with hmin
    obtain rfl := Option.some.inj hg
    exact not_lt.mp hmin

/-- **Pairs.** -/
theorem minSampleSize_le_cell {scan : Scan} {tier : Option GoString} {patch : GoString}
    {topChampions topItems : ℤ} {cell : Cell F}
    (h : cell ∈ (championItemPairs fl ref scan tier patch topChampions topItems).cells) :
    minSampleSize ≤ cell.sampleSize := by
  obtain ⟨champ, -, h⟩ := List.mem_flatMap.mp h
  obtain ⟨item, -, h⟩ := List.mem_filterMap.mp h
  obtain ⟨row, -, h⟩ := Option.bind_eq_some_iff.mp h
  split_ifs at h with hmin
  obtain rfl := Option.some.inj h
  exact hmin

/-- **The minimum sample**, for every content of the store, whatever is
asked for: of a type other than augments, lists and single entities serve
only rows with enough samples, and of augments only placeholders and rows
with samples; the series and the grid serve only points and cells with
enough samples, of all types. -/
theorem minimum_sample (fl : Doubles F) (ref : Reference) (scan : Scan) :
    (∀ entityType patch region tier tierRange limit sort category,
      ∀ rows ∈ listEntities fl ref scan entityType patch region tier tierRange limit sort category,
        ∀ row ∈ rows, Served fl ref entityType row) ∧
    (∀ entityType entityId patch tier region row,
      getEntity fl ref scan entityType entityId patch tier region = .found row →
        Served fl ref entityType row) ∧
    (∀ entityId patch id etype points,
      tierComparison fl ref scan entityId patch = .series id etype points →
        ∀ p ∈ points, minSampleSize ≤ p.sampleSize) ∧
    (∀ entityId id points, patchHistory fl scan entityId = .series id points →
      ∀ p ∈ points, minSampleSize ≤ p.sampleSize) ∧
    ∀ tier patch topChampions topItems,
      ∀ cell ∈ (championItemPairs fl ref scan tier patch topChampions topItems).cells,
        minSampleSize ≤ cell.sampleSize :=
  ⟨fun _ _ _ _ _ _ _ _ _ hrows _ hrow => served_listEntities hrows hrow,
    fun _ _ _ _ _ _ h => served_getEntity h,
    fun _ _ _ _ _ h => minSampleSize_le_tierPoint h,
    fun _ _ _ h => minSampleSize_le_patchPoint h,
    fun _ _ _ _ _ h => minSampleSize_le_cell h⟩

/-! ## Which selections have too few samples -/

/-- The samples of an entity among these entries. -/
def samplesOf (entries : List StatEntry) (id : GoString) : ℤ :=
  totalSamples (entries.filter fun e => e.entityId = id)

/-- No samples at all, or enough of them. -/
def Enough (samples : ℤ) : Prop := samples = 0 ∨ minSampleSize ≤ samples

/-- A row that the minimum sample allows. -/
def Allowed (fl : Doubles F) (ref : Reference) (row : Row F) : Prop :=
  IsPlaceholder fl ref row ∨ minSampleSize ≤ row.sampleSize

/-- The entries that a list is made of. -/
def ofTiers (tiers : Option (List GoString)) (entries : List StatEntry) : List StatEntry :=
  match tiers with
  | some tiers => entries.filter fun e => e.tier ∈ tiers
  | none => entries

theorem sampleSize_placeholder (id patch : GoString) :
    (decorateEntity ref (emptyReferenceEntry fl ref id (ascii "augment") patch)).sampleSize = 0 := by
  rw [sampleSize_decorateEntity]
  rfl

/-- The row of an entity has the samples of its entries. -/
theorem sampleSize_rowOf {entries : List StatEntry} {id : GoString} {row : Row F}
    (h : rowOf fl ref entries id = some row) :
    row.sampleSize = samplesOf entries id ∧ samplesOf entries id ≠ 0 := by
  unfold rowOf groupRow at h
  split_ifs at h with hzero
  obtain ⟨first, -, rfl⟩ := Option.map_eq_some_iff.mp h
  rw [sampleSize_decorateEntity]
  exact ⟨rfl, hzero⟩

/-- An entity with samples has a row. -/
theorem rowOf_of_samples (fl : Doubles F) (ref : Reference) {entries : List StatEntry}
    {id : GoString} (h : samplesOf entries id ≠ 0) : ∃ row, rowOf fl ref entries id = some row := by
  have hne : entries.filter (fun e => e.entityId = id) ≠ [] := by
    intro hnil
    refine h ?_
    rw [samplesOf, hnil]
    rfl
  refine Option.isSome_iff_exists.mp ?_
  unfold rowOf groupRow
  rw [if_neg (show ¬ totalSamples (entries.filter fun e => e.entityId = id) = 0 from h),
    Option.isSome_map]
  exact List.isSome_head?.mpr hne

/-- **The row that is kept of an entity is allowed**, unless it is an augment
with some samples and too few. -/
theorem allowed_keptRow_iff (fl : Doubles F) (ref : Reference) (entityType patch : GoString)
    (entries : List StatEntry) (id : GoString) :
    (∀ row, keptRow fl ref entityType patch entries id = some row → Allowed fl ref row) ↔
      (entityType = ascii "augment" → Enough (samplesOf entries id)) := by
  unfold keptRow
  split_ifs with htype hmem
  · simp only [htype, forall_const]
    cases hrow : rowOf fl ref entries id with
    | none =>
      -- without samples there is the placeholder
      have hzero : samplesOf entries id = 0 := by
        by_contra hne
        obtain ⟨row, hsome⟩ := rowOf_of_samples fl ref hne
        exact absurd (hrow.symm.trans hsome) (by simp)
      refine iff_of_true (fun row h => ?_) (Or.inl hzero)
      obtain rfl := Option.some.inj h
      exact Or.inl ⟨id, hmem, patch, rfl⟩
    | some row =>
      obtain ⟨hsize, hne⟩ := sampleSize_rowOf hrow
      constructor
      · intro h
        rcases h row rfl with ⟨id', -, patch', rfl⟩ | hmin
        · exact absurd (hsize.symm.trans (sampleSize_placeholder id' patch')) hne
        · exact Or.inr (hsize ▸ hmin)
      · rintro (hzero | hmin) row' h
        · exact absurd hzero hne
        · obtain rfl := Option.some.inj h
          exact Or.inr (hsize ▸ hmin)
  · simp only [htype, forall_const, Option.or_none]
    constructor
    · intro h
      by_contra hshort
      obtain ⟨hzero, hmin⟩ := not_or.mp hshort
      obtain ⟨row, hrow⟩ := rowOf_of_samples fl ref hzero
      obtain ⟨hsize, hne⟩ := sampleSize_rowOf hrow
      rcases h row hrow with ⟨id', -, patch', rfl⟩ | hrow
      · exact hne (hsize.symm.trans (sampleSize_placeholder id' patch'))
      · exact hmin (hsize ▸ hrow)
    · rintro (hzero | hmin) row hrow
      · exact absurd hzero (sampleSize_rowOf hrow).2
      · exact Or.inr ((sampleSize_rowOf hrow).1 ▸ hmin)
  · refine iff_of_true (fun row h => ?_) fun h => absurd h htype
    exact Or.inr (of_decide_eq_true (Option.filter_eq_some_iff.mp h).2)

/-- A category leaves some of the rows out. -/
theorem mem_keepRows_of_category {entityType patch : GoString} {category : Option GoString}
    {rows : List (Row F)} {row : Row F}
    (h : row ∈ keepRows fl ref entityType patch category rows) :
    row ∈ keepRows fl ref entityType patch none rows := by
  unfold keepRows at h ⊢
  split_ifs at h ⊢
  · dsimp only at h
    split at h
    · exact List.mem_of_mem_filter h
    · exact h
  · exact h

/-- **A list is allowed**, for all limits, sorts and categories, unless its
selection has too few samples of an augment. -/
theorem allowed_listEntities_iff {scan : Scan} {entityType patch region : GoString}
    {tier tierRange : Option GoString} :
    (∀ limit sort category, ∀ rows ∈ listEntities fl ref scan entityType patch region tier
        tierRange limit sort category, ∀ row ∈ rows, Allowed fl ref row) ↔
      (entityType = ascii "augment" → ∀ id, Enough (samplesOf
        (ofTiers (selectTiers tier tierRange) (scan entityType patch region)) id)) := by
  set entries := ofTiers (selectTiers tier tierRange) (scan entityType patch region) with hentries
  have hlist : ∀ limit sort category, listEntities fl ref scan entityType patch region tier
      tierRange limit sort category = (sortRows fl sort (keepRows fl ref entityType patch category
        (aggregateByEntity fl ref entries))).map fun rows => pySlice rows limit := fun _ _ _ => rfl
  constructor
  · intro h htype id
    refine (allowed_keptRow_iff fl ref entityType patch entries id).mp (fun row hrow => ?_) htype
    -- the list by win rate shows every row that is kept
    obtain ⟨sorted, hsorted⟩ := Option.isSome_iff_exists.mp
      (sortRows_isSome isSome_sortKey_winRate (keepRows fl ref entityType patch none
        (aggregateByEntity fl ref entries)))
    refine h sorted.length (ascii "win_rate") none sorted ?_ row ?_
    · rw [hlist, hsorted, Option.map_some, pySlice_of_length_le le_rfl]
      rfl
    · rw [(sortRows_perm hsorted).mem_iff, mem_keepRows, entityId_keptRow hrow]
      exact hrow
  · intro h limit sort category rows hrows row hrow
    rw [hlist] at hrows
    obtain ⟨sorted, hsorted, rfl⟩ := Option.map_eq_some_iff.mp hrows
    have hkept := mem_keepRows_of_category
      ((sortRows_perm hsorted).mem_iff.mp (mem_of_mem_pySlice hrow))
    exact (allowed_keptRow_iff ..).mpr (fun htype => h htype _) row (mem_keepRows.mp hkept)

/-- **A single entity is allowed** unless it is an augment with some samples
and too few. -/
theorem allowed_getEntity_iff {scan : Scan} {entityType entityId patch region : GoString}
    {tier : Option GoString} :
    (∀ row, getEntity fl ref scan entityType entityId patch tier region = .found row →
        Allowed fl ref row) ↔
      (entityType = ascii "augment" →
        Enough (samplesOf (ofTier tier (scan entityType patch region)) entityId)) := by
  rw [← allowed_keptRow_iff fl ref entityType patch, getEntity_eq]
  refine forall_congr' fun row => imp_congr_left ?_
  cases keptRow fl ref entityType patch (ofTier tier (scan entityType patch region)) entityId <;>
    simp

/-- **Where the minimum sample holds.** For every content of the store, a
list or a single entity is allowed in all its rows exactly where no augment
of its selection has some samples and too few; the points and cells of the
other queries have enough samples always. -/
theorem minimum_sample_iff (fl : Doubles F) (ref : Reference) (scan : Scan) :
    (∀ entityType patch region tier tierRange,
      (∀ limit sort category, ∀ rows ∈ listEntities fl ref scan entityType patch region tier
          tierRange limit sort category, ∀ row ∈ rows, Allowed fl ref row) ↔
        (entityType = ascii "augment" → ∀ id, Enough (samplesOf
          (ofTiers (selectTiers tier tierRange) (scan entityType patch region)) id))) ∧
    (∀ entityType entityId patch tier region,
      (∀ row, getEntity fl ref scan entityType entityId patch tier region = .found row →
          Allowed fl ref row) ↔
        (entityType = ascii "augment" →
          Enough (samplesOf (ofTier tier (scan entityType patch region)) entityId))) ∧
    (∀ entityId patch id etype points,
      tierComparison fl ref scan entityId patch = .series id etype points →
        ∀ p ∈ points, minSampleSize ≤ p.sampleSize) ∧
    (∀ entityId id points, patchHistory fl scan entityId = .series id points →
      ∀ p ∈ points, minSampleSize ≤ p.sampleSize) ∧
    ∀ tier patch topChampions topItems,
      ∀ cell ∈ (championItemPairs fl ref scan tier patch topChampions topItems).cells,
        minSampleSize ≤ cell.sampleSize :=
  ⟨fun _ _ _ _ _ => allowed_listEntities_iff, fun _ _ _ _ _ => allowed_getEntity_iff,
    fun _ _ _ _ _ h => minSampleSize_le_tierPoint h,
    fun _ _ _ h => minSampleSize_le_patchPoint h,
    fun _ _ _ _ _ h => minSampleSize_le_cell h⟩

/-- A stand-in for the doubles, on which no sample size depends. -/
def sampleDoubles : Doubles ℤ :=
  { ofBits := fun _ => 0, ofInt := id, neg := Int.neg, mul := Int.mul, div := Int.ediv
    sum := List.sum, round4 := id, lt := fun x y => x < y }

/-- A store with five games of one augment. -/
def fewGames : Scan := fun _ _ _ =>
  [{ entityId := ascii "TFT_Augment_WinOut", entityType := ascii "augment", patch := ascii "17.3",
     region := ascii "NA", tier := ascii "GOLD", winRate := 0, avgPlacement := 0, playRate := 0,
     sampleSize := 5, clock := none }]

/-- **An augment is served below the minimum.** -/
theorem not_minimum_sample : ¬ ∀ (fl : Doubles ℤ) (ref : Reference) (scan : Scan)
    (entityType patch region : GoString) (tier tierRange : Option GoString) (limit : ℤ)
    (sort : GoString) (category : Option GoString),
    ∀ rows ∈ listEntities fl ref scan entityType patch region tier tierRange limit sort category,
      ∀ row ∈ rows, IsPlaceholder fl ref row ∨ minSampleSize ≤ row.sampleSize := by
  intro h
  have hserved : ((listEntities sampleDoubles ⟨[], [], [], [], []⟩ fewGames (ascii "augment") [] []
      none none 500 (ascii "win_rate") none).map fun rows => rows.map (·.sampleSize))
      = some [5] := by decide
  obtain ⟨rows, hrows, hsizes⟩ := Option.map_eq_some_iff.mp hserved
  obtain ⟨row, rfl, hrow⟩ := List.map_eq_singleton_iff.mp hsizes
  rcases h _ _ _ _ _ _ _ _ _ _ _ _ hrows row (List.mem_singleton.mpr rfl) with hp | hmin
  · obtain ⟨id, hid, -⟩ := hp
    cases hid
  · rw [hrow] at hmin
    exact absurd hmin (by decide)

end Api

end TftAnalytics

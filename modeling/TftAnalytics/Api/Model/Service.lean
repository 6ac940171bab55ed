import TftAnalytics.Common.Dict
import TftAnalytics.Metastore.Model.Entry
import Mathlib.Data.List.Infix
/-!
# API — the service behind the endpoints

The queries of `service.py`: lists, single entities, the comparison of
tiers, the history over patches and the champion and item grid. What a
scan returns is a parameter, for the cache and the store behind it, and so
are the reference data and the arithmetic of `double`s, on which the
queries only rank and report.
-/

namespace TftAnalytics

namespace Api

open Metastore (StatEntry)

/-- `MIN_SAMPLE_SIZE`. -/
def minSampleSize : ℤ := 200

/-- What the queries use of Python's `float`, in which a scan's `double`s
come. -/
structure Doubles (F : Type) where
  ofBits : UInt64 → F
  ofInt : ℤ → F
  neg : F → F
  mul : F → F → F
  div : F → F → F
  sum : List F → F
  round4 : F → F
  lt : F → F → Bool

/-- The tables of `tft_data.py` that the queries read. -/
structure Reference where
  augments : List GoString
  augmentTiers : List (GoString × GoString)
  augmentCategories : List (GoString × GoString)
  tierRank : List (GoString × ℤ)
  defaultPatch : GoString

/-- `_scan`: the entries of a type, patch and region, as the cache or the
store returns them. -/
abbrev Scan := GoString → GoString → GoString → List StatEntry

/-- A row of a list, or a single entity; `augment` holds the
`augment_tier` and `augment_category` of a decorated row. -/
structure Row (F : Type) where
  entityId : GoString
  entityType : GoString
  winRate : F
  avgPlacement : F
  playRate : F
  sampleSize : ℤ
  patch : GoString
  tiers : List GoString
  regions : List GoString
  augment : Option (GoString × GoString)

variable {F : Type} (fl : Doubles F) (ref : Reference)

/-- `sorted` of a set of strings. -/
def sortedSet (l : List GoString) : List GoString := l.dedup.insertionSort (· ≤ ·)

/-- `_entry_dict`. -/
def entryDict (eid etype : GoString) (winRate avgPlacement playRate : F) (sampleSize : ℤ)
    (patch : GoString) (tiers regions : List GoString) : Row F :=
  { entityId := eid
    entityType := etype
    winRate := fl.round4 winRate
    avgPlacement := fl.round4 avgPlacement
    playRate := fl.round4 playRate
    sampleSize := sampleSize
    patch := patch
    tiers := sortedSet tiers
    regions := sortedSet regions
    augment := none }

/-- `_empty_reference_entry`. -/
def emptyReferenceEntry (eid etype patch : GoString) : Row F :=
  entryDict fl eid etype (fl.ofInt 0) (fl.ofInt 8) (fl.ofInt 0) 0
    (if patch = [] then ref.defaultPatch else patch) [] []

/-- `_augment_category`. -/
def augmentCategory (eid : GoString) : GoString :=
  (ref.augmentCategories.lookup eid).getD
    (if ascii "GodAugment" <:+: eid then ascii "god" else ascii "standard")

/-- `_decorate_entity`. -/
def decorateEntity (row : Row F) : Row F :=
  if row.entityType ≠ ascii "augment" then row
  else
    { row with
      augment := some
        ((ref.augmentTiers.lookup row.entityId).getD (ascii "unknown"),
          augmentCategory ref row.entityId) }

/-- The entries of a `defaultdict(list)`, grouped by a key. -/
def groupBy (key : StatEntry → GoString) (entries : List StatEntry) :
    List (GoString × List StatEntry) :=
  entries.foldl (fun groups e => upsert [] (· ++ [e]) (key e) groups) []

/-- `sum(e.sample_size for e in es)`. -/
def totalSamples (es : List StatEntry) : ℤ := (es.map fun e => e.sampleSize.toInt).sum

/-- The mean of a rate, weighted by the samples. -/
def weighted (rate : StatEntry → UInt64) (es : List StatEntry) : F :=
  fl.div
    (fl.sum (es.map fun e => fl.mul (fl.ofBits (rate e)) (fl.ofInt e.sampleSize.toInt)))
    (fl.ofInt (totalSamples es))

/-- The row of a group, none for a total of zero. -/
def groupRow (g : GoString × List StatEntry) : Option (Row F) :=
  if totalSamples g.2 = 0 then none
  else
    g.2.head?.map fun first =>
      decorateEntity ref (entryDict fl g.1 first.entityType (weighted fl (·.winRate) g.2)
        (weighted fl (·.avgPlacement) g.2) (weighted fl (·.playRate) g.2) (totalSamples g.2)
        first.patch (g.2.map (·.tier)) (g.2.map (·.region)))

/-- `aggregate_by_entity`. -/
def aggregateByEntity (entries : List StatEntry) : List (Row F) :=
  (groupBy (·.entityId) entries).filterMap (groupRow fl ref)

/-- `complete_reference_entities`. -/
def completeReferenceEntities (entityType : GoString) (rows : List (Row F)) (patch : GoString) :
    List (Row F) :=
  if entityType ≠ ascii "augment" then rows
  else
    rows ++ (ref.augments.filter fun id => id ∉ rows.map (·.entityId)).map fun id =>
      decorateEntity ref (emptyReferenceEntry fl ref id (ascii "augment") patch)

/-! ## The filters -/

/-- The UTF-8 encodings of the characters that `str.strip` removes. -/
def whitespace : List GoString :=
  [[9], [10], [11], [12], [13], [28], [29], [30], [31], [32], [0xC2, 0x85], [0xC2, 0xA0],
    [0xE1, 0x9A, 0x80], [0xE2, 0x80, 0xA8], [0xE2, 0x80, 0xA9], [0xE2, 0x80, 0xAF],
    [0xE2, 0x81, 0x9F], [0xE3, 0x80, 0x80]]
    ++ (List.range 11).map fun i => [0xE2, 0x80, 0x80 + UInt8.ofNat i]

/-- What is left of a string without the given strings in front. -/
def dropFront (spaces : List GoString) : ℕ → GoString → GoString
  | 0, s => s
  | fuel + 1, s =>
    match spaces.find? fun w => w <+: s with
    | some w => dropFront spaces fuel (s.drop w.length)
    | none => s

/-- `str.strip`. -/
def strip (s : GoString) : GoString :=
  let s := dropFront whitespace s.length s
  (dropFront (whitespace.map List.reverse) s.length s.reverse).reverse

/-- `_select_tiers`; an empty string counts as not given. -/
def selectTiers (tier tierRange : Option GoString) : Option (List GoString) :=
  match tier.filter (· ≠ []), tierRange.filter (· ≠ []) with
  | some tier, _ => some [tier]
  | none, some range => some (((range.splitOn 44).map strip).filter (· ≠ []))
  | none, none => none

/-- `rows[:limit]`. -/
def pySlice {α : Type} (rows : List α) (limit : ℤ) : List α :=
  rows.take (if 0 ≤ limit then limit.toNat else (rows.length + limit).toNat)

/-! ## Sorting -/

/-- A value that rows are sorted by. -/
inductive SortValue (F : Type) where
  | float (x : F)
  | int (n : ℤ)

/-- `r.get(sort, r["win_rate"])` where it is a number; the other fields of
a row, on which the minus sign raises, are `none`. -/
def sortValue (sort : GoString) (row : Row F) : Option (SortValue F) :=
  if sort = ascii "avg_placement" then some (.float row.avgPlacement)
  else if sort = ascii "play_rate" then some (.float row.playRate)
  else if sort = ascii "sample_size" then some (.int row.sampleSize)
  else if sort ∈ [ascii "entity_id", ascii "entity_type", ascii "patch", ascii "tiers",
      ascii "regions"] then none
  else if sort ∈ [ascii "augment_tier", ascii "augment_category"] ∧ row.augment.isSome then none
  else some (.float row.winRate)

/-- The key of the sort: rows without samples last, and the larger value
first, but for the placement. -/
def sortKey (sort : GoString) (row : Row F) : Option (Bool × SortValue F) :=
  (sortValue sort row).map fun value =>
    (decide (row.sampleSize = 0),
      if sort = ascii "avg_placement" then value
      else
        match value with
        | .float x => .float (fl.neg x)
        | .int n => .int (-n))

/-- `<` on the keys, which are tuples. -/
def keyLt : Bool × SortValue F → Bool × SortValue F → Bool
  | (z, v), (z', v') =>
    if z ≠ z' then z'
    else
      match v, v' with
      | .float x, .float x' => fl.lt x x'
      | .int n, .int n' => n < n'
      | _, _ => false

/-- `rows.sort`, stable; none where a key raises. -/
def sortRows (sort : GoString) (rows : List (Row F)) : Option (List (Row F)) :=
  (rows.mapM fun row => (sortKey fl sort row).map fun key => (key, row)).map fun keyed =>
    (keyed.insertionSort fun a b => !keyLt fl b.1 a.1).map (·.2)

/-! ## The queries -/

/-- The rows that `list_entities` keeps: augments all, with those missing,
and of one category where one is given; other types from the minimum
sample on. -/
def keepRows (entityType patch : GoString) (category : Option GoString) (rows : List (Row F)) :
    List (Row F) :=
  if entityType = ascii "augment" then
    let rows := completeReferenceEntities fl ref entityType rows patch
    match category.filter (· ≠ []) with
    | some category => rows.filter fun r => r.augment.map (·.2) = some category
    | none => rows
  else rows.filter fun r => minSampleSize ≤ r.sampleSize

/-- `list_entities`; none where the sort raises. -/
def listEntities (scan : Scan) (entityType patch region : GoString)
    (tier tierRange : Option GoString) (limit : ℤ) (sort : GoString)
    (category : Option GoString) : Option (List (Row F)) :=
  let entries := scan entityType patch region
  let entries := match selectTiers tier tierRange with
    | some tiers => entries.filter fun e => e.tier ∈ tiers
    | none => entries
  let rows := keepRows fl ref entityType patch category (aggregateByEntity fl ref entries)
  (sortRows fl sort rows).map fun rows => pySlice rows limit

/-- What `get_entity` returns: a row, or that there is too little data. -/
inductive Detail (F : Type) where
  | found (row : Row F)
  | insufficientData (entityId : GoString)

/-- `get_entity`. -/
def getEntity (scan : Scan) (entityType entityId patch : GoString) (tier : Option GoString)
    (region : GoString) : Detail F :=
  let entries := (scan entityType patch region).filter fun e => e.entityId = entityId
  let entries := match tier.filter (· ≠ []) with
    | some tier => entries.filter fun e => e.tier = tier
    | none => entries
  let rows := aggregateByEntity fl ref entries
  let rows := if entityType ≠ ascii "augment" then
      rows.filter fun r => minSampleSize ≤ r.sampleSize
    else rows
  match rows with
  | row :: _ => .found (decorateEntity ref row)
  | [] =>
    if entityType = ascii "augment" ∧ entityId ∈ ref.augments then
      .found (decorateEntity ref (emptyReferenceEntry fl ref entityId (ascii "augment") patch))
    else .insufficientData entityId

/-- The types that the comparisons go through. -/
def entityTypes : List GoString :=
  [ascii "champion", ascii "item", ascii "augment", ascii "composition"]

/-- A tier in the comparison. -/
structure TierPoint (F : Type) where
  tier : GoString
  rank : ℤ
  winRate : F
  avgPlacement : F
  sampleSize : ℤ

/-- What `tier_comparison` returns. -/
inductive Comparison (F : Type) where
  | series (entityId : GoString) (entityType : Option GoString) (points : List (TierPoint F))
  | insufficientData (entityId : GoString)

/-- The loop over the tiers: the point of a group, none below the
minimum. -/
def tierPoint (g : GoString × List StatEntry) : Option (TierPoint F) :=
  if totalSamples g.2 < minSampleSize then none
  else
    some
      { tier := g.1
        rank := (ref.tierRank.lookup g.1).getD 99
        winRate := fl.round4 (weighted fl (·.winRate) g.2)
        avgPlacement := fl.round4 (weighted fl (·.avgPlacement) g.2)
        sampleSize := totalSamples g.2 }

/-- `tier_comparison`. -/
def tierComparison (scan : Scan) (entityId patch : GoString) : Comparison F :=
  let found := entityTypes.map fun t =>
    (t, (scan t patch []).filter fun e => e.entityId = entityId)
  let all := found.flatMap (·.2)
  let etype := ((found.filter fun p => p.2 ≠ []).getLast?).map (·.1)
  if all = [] then .insufficientData entityId
  else
    .series entityId etype
      (((groupBy (·.tier) all).filterMap (tierPoint fl ref)).insertionSort
        fun p q => p.rank ≤ q.rank)

/-- A patch in the history. -/
structure PatchPoint (F : Type) where
  patch : GoString
  winRate : F
  sampleSize : ℤ

/-- What `patch_history` returns. -/
inductive History (F : Type) where
  | patches (patches : List GoString)
  | series (entityId : GoString) (points : List (PatchPoint F))

/-- The loop over the patches. -/
def patchPoint (g : GoString × List StatEntry) : Option (PatchPoint F) :=
  if totalSamples g.2 < minSampleSize then none
  else some ⟨g.1, fl.round4 (weighted fl (·.winRate) g.2), totalSamples g.2⟩

/-- `patch_history`. -/
def patchHistory (scan : Scan) (entityId : Option GoString) : History F :=
  let all := entityTypes.flatMap fun t => scan t [] []
  match entityId.filter (· ≠ []) with
  | none => .patches (sortedSet (all.map (·.patch)))
  | some entityId =>
    .series entityId
      (((groupBy (·.patch) (all.filter fun e => e.entityId = entityId)).filterMap
        (patchPoint fl)).insertionSort fun p q => p.patch ≤ q.patch)

/-- A cell of the grid. -/
structure Cell (F : Type) where
  champion : GoString
  item : GoString
  winRate : F
  avgPlacement : F
  sampleSize : ℤ

/-- The grid: its champions and items, and the cells with enough
samples. -/
structure Grid (F : Type) where
  champions : List GoString
  items : List GoString
  cells : List (Cell F)

/-- `entity_id.split("|", 1)`, where there is a `|`. -/
def splitPair (entityId : GoString) : Option (GoString × GoString) :=
  match entityId.dropWhile (· ≠ 124) with
  | _ :: item => some (entityId.takeWhile (· ≠ 124), item)
  | [] => none

/-- The keys of a dictionary of counts, the largest first. -/
def topKeys (counts : List (GoString × ℤ)) (n : ℤ) : List GoString :=
  pySlice ((counts.insertionSort fun p q => q.2 ≤ p.2).map (·.1)) n

/-- `champion_item_pairs`. -/
def championItemPairs (scan : Scan) (tier : Option GoString) (patch : GoString)
    (topChampions topItems : ℤ) : Grid F :=
  let entries := scan (ascii "champion_item") patch []
  let entries := match tier.filter (· ≠ []) with
    | some tier => entries.filter fun e => e.tier = tier
    | none => entries
  let pairs := (aggregateByEntity fl ref entries).filterMap fun r =>
    (splitPair r.entityId).map fun p => (p, r)
  let champSamples := pairs.foldl
    (fun d p => upsert 0 (· + p.2.sampleSize) p.1.1 d) ([] : List (GoString × ℤ))
  let itemSamples := pairs.foldl
    (fun d p => upsert 0 (· + p.2.sampleSize) p.1.2 d) ([] : List (GoString × ℤ))
  let cell := pairs.reverse
  let champions := topKeys champSamples topChampions
  let items := topKeys itemSamples topItems
  { champions := champions
    items := items
    cells := champions.flatMap fun champ => items.filterMap fun item =>
      (cell.lookup (champ, item)).bind fun r =>
        if minSampleSize ≤ r.sampleSize then
          some ⟨champ, item, r.winRate, r.avgPlacement, r.sampleSize⟩
        else none }

end Api

end TftAnalytics

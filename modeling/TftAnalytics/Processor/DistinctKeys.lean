import TftAnalytics.Processor.Model.Aggregator
import Mathlib.Data.Set.Lattice
import Mathlib.Order.CompletePartialOrder
/-!
# Processor — stats that do not overwrite each other

The aggregator keys its stats by id, type and slice; the store joins id,
patch, tier and region with colons and leaves the type out. Over a
vocabulary in which the ids of champions, items and augments are told
apart and read as neither pairs nor compositions, the id gives the type
(`Vocabulary.type_unique`), and slices without colons are read back from
the right (`entryKey_inj`), so the joined keys of a flush are distinct
(`flush_entryKey_nodup`).
-/

namespace TftAnalytics

namespace Processor

open Metastore (VectorClock StatEntry entryKey colon)

/-- The byte `|`. -/
def bar : UInt8 := 124

/-- **A vocabulary**: ids of champions, of items and of augments, no id in
two of them, none with a bar, and none that starts like a composition. -/
structure Vocabulary where
  champions : Set GoString
  items : Set GoString
  augments : Set GoString
  champions_items : Disjoint champions items
  champions_augments : Disjoint champions augments
  items_augments : Disjoint items augments
  no_bar : ∀ id ∈ champions ∪ items ∪ augments, bar ∉ id
  no_comp : ∀ id ∈ champions ∪ items ∪ augments, ¬ ascii "comp:" <+: id

namespace Vocabulary

variable (V : Vocabulary)

/-- The match is told in the vocabulary, and its patch, tier and region
have no colon. -/
structure Tells (m : MatchEvent) : Prop where
  patch : colon ∉ m.patch
  tier : colon ∉ m.tier
  region : colon ∉ m.region
  units : ∀ player ∈ m.players, ∀ unit ∈ player.units,
    unit.characterId ∈ V.champions ∧ ∀ item ∈ unit.items, item ∈ V.items
  augments : ∀ player ∈ m.players, ∀ augment ∈ player.augments, augment ∈ V.augments

/-- What the ids of an entity type look like. -/
def Id : EntityType → GoString → Prop
  | .champion, id => id ∈ V.champions
  | .championItem, id =>
    ∃ champion ∈ V.champions, ∃ item ∈ V.items, id = champion ++ ascii "|" ++ item
  | .item, id => id ∈ V.items
  | .augment, id => id ∈ V.augments
  | .composition, id => ascii "comp:" <+: id

variable {V} {t t' : EntityType} {id : GoString}

theorem Id.no_comp (h : V.Id t id) (ht : t = .champion ∨ t = .item ∨ t = .augment) :
    bar ∉ id ∧ ¬ ascii "comp:" <+: id := by
  have hmem : id ∈ V.champions ∪ V.items ∪ V.augments := by
    rcases ht with rfl | rfl | rfl
    · exact Or.inl (Or.inl h)
    · exact Or.inl (Or.inr h)
    · exact Or.inr h
  exact ⟨V.no_bar id hmem, V.no_comp id hmem⟩

/-- A pair does not start like a composition: the bar would be in the prefix,
or the champion would start so. -/
theorem Id.pair (h : V.Id .championItem id) : bar ∈ id ∧ ¬ ascii "comp:" <+: id := by
  obtain ⟨champion, hchampion, item, -, rfl⟩ := h
  refine ⟨by simp [ascii, bar], fun hcomp => ?_⟩
  have hno : bar ∉ ascii "comp:" := by decide
  have hfirst : champion ++ [bar] <+: champion ++ ascii "|" ++ item := List.prefix_append _ _
  rcases List.prefix_or_prefix_of_prefix hcomp hfirst with hin | hover
  · rcases List.prefix_concat_iff.mp hin with heq | hin
    · exact hno (heq ▸ by simp)
    · exact V.no_comp champion (Or.inl (Or.inl hchampion)) hin
  · exact hno (hover.subset (by simp))

/-- **The id gives the type.** -/
theorem type_unique (h : V.Id t id) (h' : V.Id t' id) : t = t' := by
  by_cases hcomp : ascii "comp:" <+: id
  · -- only compositions start so
    have honly : ∀ {t}, V.Id t id → t = .composition := by
      intro t h
      cases t with
      | champion => exact absurd hcomp (h.no_comp (by simp)).2
      | item => exact absurd hcomp (h.no_comp (by simp)).2
      | augment => exact absurd hcomp (h.no_comp (by simp)).2
      | championItem => exact absurd hcomp h.pair.2
      | composition => rfl
    rw [honly h, honly h']
  by_cases hbar : bar ∈ id
  · -- of the others, only pairs have a bar
    have honly : ∀ {t}, V.Id t id → t = .championItem := by
      intro t h
      cases t with
      | champion => exact absurd hbar (h.no_comp (by simp)).1
      | item => exact absurd hbar (h.no_comp (by simp)).1
      | augment => exact absurd hbar (h.no_comp (by simp)).1
      | championItem => rfl
      | composition => exact absurd h hcomp
    rw [honly h, honly h']
  · have hplain : ∀ {t}, V.Id t id → t ≠ .championItem ∧ t ≠ .composition := by
      intro t h
      constructor <;> rintro rfl
      · exact hbar h.pair.1
      · exact hcomp h
    obtain ⟨hpair, hcomp⟩ := hplain h
    obtain ⟨hpair', hcomp'⟩ := hplain h'
    have hci : id ∈ V.champions → id ∉ V.items :=
      fun hc => Set.disjoint_left.mp V.champions_items hc
    have hca : id ∈ V.champions → id ∉ V.augments :=
      fun hc => Set.disjoint_left.mp V.champions_augments hc
    have hia : id ∈ V.items → id ∉ V.augments := fun hi => Set.disjoint_left.mp V.items_augments hi
    cases t <;> cases t' <;>
      first
      | rfl
      | exact absurd rfl hpair
      | exact absurd rfl hcomp
      | exact absurd rfl hpair'
      | exact absurd rfl hcomp'
      | exact absurd h' (hci h)
      | exact absurd h (hci h')
      | exact absurd h' (hca h)
      | exact absurd h (hca h')
      | exact absurd h' (hia h)
      | exact absurd h (hia h')

/-- What the keys of the aggregator look like. -/
structure Key (V : Vocabulary) (k : StatKey) : Prop where
  id : V.Id k.entityType k.entityId
  patch : colon ∉ k.slice.patch
  tier : colon ∉ k.slice.tier
  region : colon ∉ k.slice.region

end Vocabulary

/-! ## The keys of the aggregator -/

namespace StatAggregator

variable {V : Vocabulary} {agg : StatAggregator} {slice : Slice} {m : MatchEvent}

/-- **The buffers are keyed once each**, by keys of the vocabulary. -/
structure Keyed (V : Vocabulary) (agg : StatAggregator) : Prop where
  nodup : (agg.buffers.map Prod.fst).Nodup
  keys : ∀ k ∈ agg.buffers.map Prod.fst, V.Key k

theorem keyed_new : Keyed V new := ⟨List.nodup_nil, by simp [new]⟩

theorem Keyed.add (h : Keyed V agg) {key : StatKey} (hkey : V.Key key) (placement : Int32) :
    Keyed V (agg.add key placement) := by
  have hkeys : (agg.add key placement).buffers.map Prod.fst
      = if key ∈ agg.buffers.map Prod.fst then agg.buffers.map Prod.fst
        else agg.buffers.map Prod.fst ++ [key] := keys_upsert _ _ _ _
  by_cases hmem : key ∈ agg.buffers.map Prod.fst
  · rw [if_pos hmem] at hkeys
    exact ⟨hkeys ▸ h.nodup, hkeys ▸ h.keys⟩
  · rw [if_neg hmem] at hkeys
    refine ⟨hkeys ▸ List.nodup_append'.mpr ⟨h.nodup, List.nodup_singleton _, by simpa using hmem⟩,
      hkeys ▸ fun k hk => ?_⟩
    rcases List.mem_append.mp hk with hk | hk
    · exact h.keys k hk
    · exact List.mem_singleton.mp hk ▸ hkey

/-- A slice that can be read back from a joined key. -/
def Plain (slice : Slice) : Prop :=
  colon ∉ slice.patch ∧ colon ∉ slice.tier ∧ colon ∉ slice.region

theorem Plain.key (h : Plain slice) {t : EntityType} {id : GoString} (hid : V.Id t id) :
    V.Key ⟨id, t, slice⟩ :=
  ⟨hid, h.1, h.2.1, h.2.2⟩

theorem Keyed.addUnit (hslice : Plain slice) (placement : Int32)
    {acc : StatAggregator × List GoString} (h : Keyed V acc.1) {unit : MatchUnit}
    (hunit : unit.characterId ∈ V.champions ∧ ∀ item ∈ unit.items, item ∈ V.items) :
    Keyed V (addUnit slice placement acc unit).1 := by
  unfold StatAggregator.addUnit
  refine List.foldlRecOn (motive := fun acc : StatAggregator × List GoString => Keyed V acc.1)
    unit.items (addItem slice placement unit)
      (h.add (hslice.key (t := .champion) hunit.1) placement) ?_
  intro acc hacc item hitem
  have hpair : V.Id .championItem (unit.characterId ++ ascii "|" ++ item) :=
    ⟨unit.characterId, hunit.1, item, hunit.2 item hitem, rfl⟩
  unfold addItem
  split_ifs
  · exact hacc.add (hslice.key hpair) placement
  · exact (hacc.add (hslice.key hpair) placement).add
      (hslice.key (t := .item) (hunit.2 item hitem)) placement

/-- Every composition has the prefix. -/
theorem compositionLabel_starts (cost : GoString → ℕ) (units : List MatchUnit) :
    ascii "comp:" <+: compositionLabel cost units := by
  cases units with
  | nil => exact ⟨ascii "Unknown", rfl⟩
  | cons first rest => exact List.prefix_append _ _

theorem Keyed.addBoard (hslice : Plain slice) (cost : GoString → ℕ) (h : Keyed V agg)
    {player : PlayerResult}
    (hunits : ∀ unit ∈ player.units,
      unit.characterId ∈ V.champions ∧ ∀ item ∈ unit.items, item ∈ V.items)
    (haugments : ∀ augment ∈ player.augments, augment ∈ V.augments) :
    Keyed V (addBoard cost slice agg player) := by
  have hcounted : Keyed V { agg with totals := upsert 0 (· + 1) slice agg.totals } :=
    ⟨h.nodup, h.keys⟩
  have hboard := List.foldlRecOn
    (motive := fun acc : StatAggregator × List GoString => Keyed V acc.1) player.units
    (StatAggregator.addUnit slice player.placement)
    (b := ({ agg with totals := upsert 0 (· + 1) slice agg.totals }, [])) hcounted
    fun acc hacc unit hunit => hacc.addUnit hslice player.placement (hunits unit hunit)
  have haugmented := List.foldlRecOn (motive := Keyed V) player.augments
    (fun agg augment => agg.add ⟨augment, .augment, slice⟩ player.placement) hboard
    fun agg hagg augment hmem =>
      hagg.add (hslice.key (t := .augment) (haugments augment hmem)) player.placement
  exact haugmented.add
    (hslice.key (t := .composition) (compositionLabel_starts cost player.units)) player.placement

theorem Keyed.processMatch (h : Keyed V agg) (cost : GoString → ℕ) (hm : V.Tells m) :
    Keyed V (processMatch cost agg m) := by
  have hslice : Plain ⟨m.patch, m.tier, m.region⟩ := ⟨hm.patch, hm.tier, hm.region⟩
  have hboards := List.foldlRecOn (motive := Keyed V) m.players
    (StatAggregator.addBoard cost ⟨m.patch, m.tier, m.region⟩) h
    fun agg hagg player hplayer =>
      hagg.addBoard hslice cost (hm.units player hplayer) (hm.augments player hplayer)
  exact ⟨hboards.nodup, hboards.keys⟩

theorem keyed_processBatch (cost : GoString → ℕ) {ms : List MatchEvent}
    (hms : ∀ m ∈ ms, V.Tells m) : Keyed V (new.processBatch cost ms) :=
  List.foldlRecOn (motive := Keyed V) ms (StatAggregator.processMatch cost) keyed_new
    fun _ hagg m hm => hagg.processMatch cost (hms m hm)

end StatAggregator

/-! ## The keys of the store -/

/-- What follows the last colon is read back. -/
theorem last_field_inj {a a' b b' : GoString} (hb : colon ∉ b) (hb' : colon ∉ b')
    (h : a ++ [colon] ++ b = a' ++ [colon] ++ b') : a = a' ∧ b = b' := by
  simp only [List.append_assoc, List.singleton_append] at h
  rcases List.append_eq_append_iff.mp h with ⟨c, rfl, hc⟩ | ⟨c, rfl, hc⟩
  · rcases List.cons_eq_append_iff.mp hc with ⟨rfl, heq⟩ | ⟨c', rfl, rfl⟩
    · exact ⟨(List.append_nil a).symm, (List.cons.inj heq).2.symm⟩
    · exact absurd (by simp) hb
  · rcases List.cons_eq_append_iff.mp hc with ⟨rfl, heq⟩ | ⟨c', rfl, rfl⟩
    · exact ⟨List.append_nil a', (List.cons.inj heq).2⟩
    · exact absurd (by simp) hb'

/-- **Joined keys without colons in the slice are read back**, whatever the
id contains. -/
theorem entryKey_inj {e e' : StatEntry} (hpatch : colon ∉ e.patch) (htier : colon ∉ e.tier)
    (hregion : colon ∉ e.region) (hpatch' : colon ∉ e'.patch) (htier' : colon ∉ e'.tier)
    (hregion' : colon ∉ e'.region) (h : entryKey e = entryKey e') :
    e.entityId = e'.entityId ∧ e.patch = e'.patch ∧ e.tier = e'.tier ∧ e.region = e'.region := by
  unfold entryKey at h
  obtain ⟨h, hr⟩ := last_field_inj hregion hregion' h
  obtain ⟨h, ht⟩ := last_field_inj htier htier' h
  obtain ⟨hid, hp⟩ := last_field_inj hpatch hpatch' h
  exact ⟨hid, hp, ht, hr⟩

namespace StatAggregator

/-- Different keys of the vocabulary join to different strings. -/
theorem entryKey_toEntry_inj {V : Vocabulary} (double : ℚ → UInt64) (clock : VectorClock)
    {s s' : Stat} (hs : V.Key s.key) (hs' : V.Key s'.key)
    (h : entryKey (s.toEntry double clock) = entryKey (s'.toEntry double clock)) :
    s.key = s'.key := by
  obtain ⟨hid, hpatch, htier, hregion⟩ :=
    entryKey_inj hs.patch hs.tier hs.region hs'.patch hs'.tier hs'.region h
  have hid : s.key.entityId = s'.key.entityId := hid
  have htype : s.key.entityType = s'.key.entityType :=
    Vocabulary.type_unique hs.id (hid ▸ hs'.id)
  have hslice : s.key.slice = s'.key.slice := Slice.ext hpatch htier hregion
  exact StatKey.ext hid htype hslice

theorem stat_key {totals : List (Slice × ℕ)} {p : StatKey × List Int32} {s : Stat}
    (h : stat totals p = some s) : s.key = p.1 := by
  simp only [stat] at h
  split_ifs at h <;>
    · obtain rfl := Option.some.inj h
      rfl

/-- **The stats of a flush do not overwrite each other**: for every list of
matches told in a vocabulary, the entries of the flush have distinct keys
in the store. -/
theorem flush_entryKey_nodup (V : Vocabulary) (cost : GoString → ℕ) (double : ℚ → UInt64)
    (clock : VectorClock) (ms : List MatchEvent) (hms : ∀ m ∈ ms, V.Tells m) :
    (((new.processBatch cost ms).flush.2.map fun s => s.toEntry double clock).map
      entryKey).Nodup := by
  obtain ⟨hnodup, hkeys⟩ := keyed_processBatch cost hms
  have hdistinct : (new.processBatch cost ms).buffers.Pairwise fun p q => p.1 ≠ q.1 :=
    List.pairwise_map.mp hnodup
  rw [List.map_map, flush, List.Nodup, List.pairwise_map, List.pairwise_filterMap]
  refine hdistinct.imp_of_mem fun {p q} hp hq hne s hs s' hs' heq => ?_
  have hkey := stat_key hs
  have hkey' := stat_key hs'
  have hwell : V.Key s.key := hkey ▸ hkeys _ (List.mem_map_of_mem hp)
  have hwell' : V.Key s'.key := hkey' ▸ hkeys _ (List.mem_map_of_mem hq)
  have hsame := entryKey_toEntry_inj double clock hwell hwell' heq
  exact hne (hkey.symm.trans (hsame.trans hkey'))

/-- One champion, one item, one augment. -/
def smallVocabulary : Vocabulary where
  champions := {ascii "TFT14_Ahri"}
  items := {ascii "TFT_Item_Shojin"}
  augments := {ascii "TFT14_Augment_Jazzed"}
  champions_items := by simp [ascii]
  champions_augments := by simp [ascii]
  items_augments := by simp [ascii]
  no_bar := by rintro id ((rfl | rfl) | rfl) <;> decide
  no_comp := by rintro id ((rfl | rfl) | rfl) <;> decide

/-- A board with one itemized unit and an augment. -/
def smallMatch : MatchEvent :=
  { region := ascii "NA1", patch := ascii "14.1", tier := ascii "DIAMOND", clock := none
    players := [{ placement := 1
                  units := [⟨ascii "TFT14_Ahri", [ascii "TFT_Item_Shojin"]⟩]
                  augments := [ascii "TFT14_Augment_Jazzed"] }] }

theorem flush_entryKey_nodup_small :
    ((new.processBatch (fun _ => 4) [smallMatch]).flush.2.map (·.key.entityType))
        = [.champion, .championItem, .item, .augment, .composition] ∧
      (((new.processBatch (fun _ => 4) [smallMatch]).flush.2.map fun s =>
        s.toEntry (fun _ => 0) ⟨∅, List.Pairwise.nil⟩).map entryKey).Nodup := by
  have htells : ∀ m ∈ [smallMatch], smallVocabulary.Tells m := by
    intro m hm
    obtain rfl := List.mem_singleton.mp hm
    exact
      { patch := by decide
        tier := by decide
        region := by decide
        units := by simp [smallMatch, smallVocabulary]
        augments := by simp [smallMatch, smallVocabulary] }
  exact ⟨by decide, flush_entryKey_nodup smallVocabulary _ _ _ _ htells⟩

end StatAggregator

end Processor

end TftAnalytics

import TftAnalytics.Ingestion.Helpers.Scheduler
import TftAnalytics.Processor.Totals
import Mathlib.Tactic.Ring
/-!
# Ingestion — synthetic lobbies and the comp list

What the processor makes of matches that `generate_match` fabricates. The
eight players of a match are placed first to eighth, so in every slice the
compositions average a placement of four and a half and a win rate of one
half. And the label that the processor gives to a board is that of the comp
it was drawn for, which the generator leaves to the items: the carry has
more of them than any other unit.
-/

namespace TftAnalytics

namespace Ingestion

open Processor (Slice MatchEvent MatchUnit PlayerResult seated placements compositions
  compositionLabel carry carryLt)

/-- The label of a comp: that of its carry, or of a board without one. -/
def Comp.label (c : Comp) : GoString := ascii "comp:" ++ c.carry.getD (ascii "Fast9")

/-- **What the tables hold to**: the carry of a comp is one of its units, and
a comp without a carry has three units of cost five. -/
def Comp.Fielded (cost : GoString → ℕ) (c : Comp) : Prop :=
  (∀ cid, c.carry = some cid → cid ∈ c.units) ∧
    (c.carry = none → 3 ≤ c.units.countP fun u => decide (5 ≤ cost u))

/-- The arguments and draws of a call of `generate_match`. -/
structure Lobby where
  region : GoString
  tier : GoString
  patch : GoString
  nodeId : GoString
  seq : Int64
  draws : Fin 8 → Draw
  uuid : GoString
  now : Int64

/-- The match that the processor receives. -/
def Lobby.received (md5 : GoString → ℕ) (td : Tables) (l : Lobby) : MatchEvent :=
  (generateMatch md5 td l.region l.tier l.patch l.nodeId l.seq l.draws l.uuid l.now).received

/-- Where its boards count. -/
def Lobby.slice (l : Lobby) : Slice := ⟨l.patch, l.tier, l.region⟩

variable {md5 : GoString → ℕ} {td : Tables} {cost : GoString → ℕ}

/-! ## The board of a draw -/

/-- The units of a board are those of its comp, with items as they are
drawn. -/
theorem forall₂_board {d : Draw} (h : d.Possible td) :
    List.Forall₂
      (fun cid (u : MatchUnit) => u.characterId = cid ∧
        u.items.length ∈ itemCounts d.comp.carry cid)
      d.comp.units (d.board.map PbUnit.received) := by
  have hhands := h.hands
  unfold Draw.board
  generalize d.comp.units = cids, d.hands = hands at hhands ⊢
  induction hhands with
  | nil => exact .nil
  | cons hand _ ih => exact .cons ⟨rfl, hand.2.1⟩ ih

theorem map_characterId_board {d : Draw} (h : d.Possible td) :
    (d.board.map PbUnit.received).map MatchUnit.characterId = d.comp.units := by
  have hboard := forall₂_board h
  generalize d.comp.units = cids, d.board.map PbUnit.received = units at hboard ⊢
  induction hboard with
  | nil => rfl
  | cons hu _ ih => rw [List.map_cons, hu.1, ih]

theorem items_board {d : Draw} (h : d.Possible td) {u : MatchUnit}
    (hu : u ∈ d.board.map PbUnit.received) :
    u.items.length ∈ itemCounts d.comp.carry u.characterId := by
  have hboard := forall₂_board h
  generalize d.comp.units = cids, d.board.map PbUnit.received = units at hboard hu
  induction hboard with
  | nil => cases hu
  | cons hv _ ih =>
    rcases List.mem_cons.mp hu with rfl | hu
    · rw [hv.1]
      exact hv.2
    · exact ih hu

/-- The unit with the most items is the carry, where there is one. -/
theorem carry_board (cost : GoString → ℕ) {d : Draw} (h : d.Possible td) {cid : GoString}
    (hcid : d.comp.carry = some cid) (hmem : cid ∈ d.comp.units) {first : MatchUnit}
    {rest : List MatchUnit} (hboard : d.board.map PbUnit.received = first :: rest) :
    (carry cost first rest).characterId = cid ∧ 2 ≤ (carry cost first rest).items.length := by
  obtain ⟨hcarry, hmax⟩ := Processor.carry_spec cost first rest
  rw [← hboard] at hcarry hmax
  -- a unit of the carry's id has two items or more
  rw [← map_characterId_board h] at hmem
  obtain ⟨u, hu, rfl⟩ := List.mem_map.mp hmem
  have hlen : 2 ≤ u.items.length := by
    have hitems := items_board h hu
    rw [itemCounts, if_pos hcid, List.mem_pair] at hitems
    omega
  have hle : u.items.length ≤ (carry cost first rest).items.length := by
    by_contra hlt
    exact hmax u hu (Processor.carryLt_iff.mpr (.inl (by omega)))
  have hmost := items_board h hcarry
  rw [itemCounts, hcid] at hmost
  split_ifs at hmost with heq
  · exact ⟨(Option.some.inj heq).symm, hlen.trans hle⟩
  · rw [List.mem_pair] at hmost
    omega

/-- **A board is labelled by its comp.** -/
theorem label_board {d : Draw} (h : d.Possible td) (hcomp : d.comp.Fielded cost) :
    compositionLabel cost (d.board.map PbUnit.received) = d.comp.label := by
  have hunits := map_characterId_board h
  rcases hboard : d.board.map PbUnit.received with _ | ⟨first, rest⟩
  · -- no comp is empty
    rw [hboard, List.map_nil] at hunits
    rcases hcid : d.comp.carry with _ | cid
    · have hfives := hcomp.2 hcid
      rw [← hunits, List.countP_nil] at hfives
      omega
    · have hmem := hcomp.1 cid hcid
      rw [← hunits] at hmem
      cases hmem
  · rw [compositionLabel, Comp.label]
    rcases hcid : d.comp.carry with _ | cid
    · have hfew : (carry cost first rest).items.length < 2 := by
        have hitems := items_board h (u := carry cost first rest)
          (hboard ▸ (Processor.carry_spec cost first rest).1)
        rw [itemCounts, hcid, if_neg (by simp), List.mem_pair] at hitems
        omega
      have hfives : 3 ≤ (first :: rest).countP fun u => decide (5 ≤ cost u.characterId) := by
        have hcount := hcomp.2 hcid
        rwa [← hunits, hboard, List.countP_map] at hcount
      simp only [hfew, hfives, and_self, if_true, Option.getD_none]
    · obtain ⟨hid, hlen⟩ := carry_board cost h hcid (hcomp.1 cid hcid) hboard
      rw [if_neg (by omega), hid, Option.getD_some]

/-! ## The players of a match -/

theorem players_received (md5 : GoString → ℕ) (td : Tables) (l : Lobby) :
    (l.received md5 td).players
      = ((ranked md5 td l.tier l.draws).zipIdx 1).map fun p => (p.1.player p.2).received :=
  List.map_map ..

/-- **The players are placed first to eighth.** -/
theorem placements_received (md5 : GoString → ℕ) (td : Tables) (l : Lobby) :
    (l.received md5 td).players.map PlayerResult.placement = [1, 2, 3, 4, 5, 6, 7, 8] := by
  calc (l.received md5 td).players.map PlayerResult.placement
      = (((ranked md5 td l.tier l.draws).zipIdx 1).map Prod.snd).map Int32.ofNat := by
        rw [players_received, List.map_map, List.map_map]
        rfl
    _ = (List.range' 1 8).map Int32.ofNat := by rw [List.zipIdx_map_snd, length_ranked]
    _ = [1, 2, 3, 4, 5, 6, 7, 8] := by decide

theorem labels_received {l : Lobby} (hdraws : ∀ k, (l.draws k).Possible td)
    (hcomps : ∀ c ∈ td.comps, c.Fielded cost) (md5 : GoString → ℕ) :
    (l.received md5 td).players.map (fun player => compositionLabel cost player.units)
      = (ranked md5 td l.tier l.draws).map fun d => d.comp.label := by
  have hlabel : ∀ d ∈ ranked md5 td l.tier l.draws,
      compositionLabel cost (d.board.map PbUnit.received) = d.comp.label := by
    intro d hd
    obtain ⟨k, rfl⟩ := List.mem_ofFn.mp ((List.perm_insertionSort _ _).mem_iff.mp hd)
    exact label_board (hdraws k) (hcomps _ (hdraws k).comp)
  calc (l.received md5 td).players.map (fun player => compositionLabel cost player.units)
      = (((ranked md5 td l.tier l.draws).zipIdx 1).map Prod.fst).map
          fun d => compositionLabel cost (d.board.map PbUnit.received) := by
        rw [players_received, List.map_map, List.map_map]
        rfl
    _ = (ranked md5 td l.tier l.draws).map fun d => d.comp.label := by
        rw [List.zipIdx_map_fst]
        exact List.map_congr_left hlabel

/-! ## The comp list of a batch -/

theorem filter_received (batch : List Lobby) (slice : Slice) :
    ((batch.map (Lobby.received md5 td)).filter fun m => decide (m.slice = slice))
      = (batch.filter fun l => decide (l.slice = slice)).map (Lobby.received md5 td) :=
  List.filter_map

theorem placements_batch (batch : List Lobby) (slice : Slice) :
    placements (batch.map (Lobby.received md5 td)) slice
      = (batch.filter fun l => decide (l.slice = slice)).flatMap fun _ =>
          [1, 2, 3, 4, 5, 6, 7, 8] := by
  rw [placements, Processor.valuesAt_seated, filter_received, List.flatMap_map, List.map_flatMap]
  simp only [placements_received]

/-- What eight players each add up to. -/
theorem totals_placements (ms : List Lobby) :
    (ms.flatMap fun _ => [1, 2, 3, 4, 5, 6, 7, (8 : Int32)]).length = 8 * ms.length ∧
      ((ms.flatMap fun _ => [1, 2, 3, 4, 5, 6, 7, (8 : Int32)]).map Int32.toInt).sum
        = 36 * ms.length ∧
      ((ms.flatMap fun _ => [1, 2, 3, 4, 5, 6, 7, (8 : Int32)]).countP fun x => decide (x ≤ 4))
        = 4 * ms.length := by
  induction ms with
  | nil => exact ⟨rfl, rfl, rfl⟩
  | cons m ms ih =>
    obtain ⟨hlen, hsum, hcount⟩ := ih
    have hsum8 : ([1, 2, 3, 4, 5, 6, 7, (8 : Int32)].map Int32.toInt).sum = 36 := by decide
    have hcount8 : [1, 2, 3, 4, 5, 6, 7, (8 : Int32)].countP (fun x => decide (x ≤ 4)) = 4 := by
      decide
    refine ⟨?_, ?_, ?_⟩
    · rw [List.flatMap_cons, List.length_append, hlen]
      simp only [List.length_cons, List.length_nil]
      omega
    · rw [List.flatMap_cons, List.map_append, List.sum_append, hsum, hsum8]
      simp only [List.length_cons]
      push_cast
      ring
    · rw [List.flatMap_cons, List.countP_append, hcount, hcount8, List.length_cons]
      omega

/-- **Synthetic averages.** Whatever the generator draws, in the entries that
a flush makes of its matches for the compositions of a slice the samples add
up to eight for each match of the slice; weighted by them, the average
placement of the compositions is four and a half and their win rate one
half. -/
theorem synthetic_averages (md5 : GoString → ℕ) (td : Tables) (cost : GoString → ℕ)
    (batch : List Lobby) (slice : Slice) :
    ((compositions cost (batch.map (Lobby.received md5 td)) slice).map
        fun s => (s.sampleSize : ℚ)).sum
        = 8 * (batch.countP fun l => decide (l.slice = slice) : ℕ) ∧
      ((compositions cost (batch.map (Lobby.received md5 td)) slice).map
        fun s => (s.sampleSize : ℚ) * s.avgPlacement).sum
        = 9 / 2 * ((compositions cost (batch.map (Lobby.received md5 td)) slice).map
          fun s => (s.sampleSize : ℚ)).sum ∧
      ((compositions cost (batch.map (Lobby.received md5 td)) slice).map
        fun s => (s.sampleSize : ℚ) * s.winRate).sum
        = 1 / 2 * ((compositions cost (batch.map (Lobby.received md5 td)) slice).map
          fun s => (s.sampleSize : ℚ)).sum := by
  obtain ⟨hsamples, havg, hwin⟩ :=
    Processor.composition_totals cost (batch.map (Lobby.received md5 td)) slice
  rw [placements_batch] at hsamples havg hwin
  obtain ⟨hlen, hsum, hcount⟩ := totals_placements (batch.filter fun l => decide (l.slice = slice))
  rw [hlen] at hsamples
  rw [hsum] at havg
  rw [hcount] at hwin
  rw [hsamples, havg, hwin, List.countP_eq_length_filter]
  push_cast
  exact ⟨rfl, by ring, by ring⟩

theorem labels_batch {batch : List Lobby} (hdraws : ∀ l ∈ batch, ∀ k, (l.draws k).Possible td)
    (hcomps : ∀ c ∈ td.comps, c.Fielded cost) (md5 : GoString → ℕ) (slice : Slice) :
    (Processor.labels cost (batch.map (Lobby.received md5 td)) slice).Perm
      (((batch.filter fun l => decide (l.slice = slice)).flatMap fun l => List.ofFn l.draws).map
        fun d => d.comp.label) := by
  rw [Processor.labels, Processor.valuesAt_seated, filter_received, List.flatMap_map,
    List.map_flatMap, List.map_flatMap]
  refine List.Perm.flatMap_left _ fun l hl => ?_
  rw [labels_received (hdraws l (List.mem_filter.mp hl).1) hcomps]
  exact (List.perm_insertionSort _ _).map _

/-- **The comp list of synthetic matches names the comps.** Where every comp
of the tables has its carry among its units, or else three units of cost
five, a flush of any matches that the generator can draw has an entry for a
composition of a slice under an id and with a sample size if and only if
that many boards of the slice, and at least one, were drawn for comps with
this label. -/
theorem synthetic_compositions (hcomps : ∀ c ∈ td.comps, c.Fielded cost) (batch : List Lobby)
    (hdraws : ∀ l ∈ batch, ∀ k, (l.draws k).Possible td) (md5 : GoString → ℕ) (slice : Slice)
    (id : GoString) (n : ℕ) :
    (∃ s ∈ compositions cost (batch.map (Lobby.received md5 td)) slice,
        s.key.entityId = id ∧ s.sampleSize = n)
      ↔ 0 < n ∧ (((batch.filter fun l => decide (l.slice = slice)).flatMap
          fun l => List.ofFn l.draws).map fun d => d.comp.label).count id = n := by
  rw [Processor.exists_mem_compositions_iff, (labels_batch hdraws hcomps md5 slice).count_eq]

/-- A comp of one unit, and its board. -/
def soloComp : Comp := ⟨ascii "TFT17_Vex", some (ascii "TFT17_Vex"), [ascii "TFT17_Vex"]⟩

def soloTables : Tables :=
  ⟨[soloComp], [ascii "TFT_Item_Deathcap", ascii "TFT_Item_BlueBuff"],
    [ascii "TFT11_Augment_Epoch", ascii "TFT11_Augment_BloodBank"], [], [], []⟩

def soloDraw : Draw :=
  ⟨soloComp, [(soloTables.items, 2)], soloTables.augments, 1 / 10, ascii "puuid_1", 30⟩

theorem soloDraw_possible : soloDraw.Possible soloTables where
  comp := .head _
  hands := .cons ⟨List.Subperm.refl _, .head _, by decide, by decide⟩ .nil
  augments := ⟨List.Subperm.refl _, .head _⟩
  roundsPlayed := by decide

/-- One match, of eight such boards. -/
theorem synthetic_compositions_solo :
    ∃ s ∈ compositions (fun _ => 5)
        ([⟨ascii "NA", ascii "GOLD", ascii "17.3", ascii "ingest-1", 1, fun _ => soloDraw, [],
          0⟩].map (Lobby.received (fun _ => 0) soloTables))
        ⟨ascii "17.3", ascii "GOLD", ascii "NA"⟩,
      s.key.entityId = ascii "comp:TFT17_Vex" ∧ s.sampleSize = 8 := by
  have hcomps : ∀ c ∈ soloTables.comps, c.Fielded fun _ => 5 := by
    intro c hc
    obtain rfl := List.mem_singleton.mp hc
    exact ⟨fun cid hcid => Option.some.inj hcid ▸ .head _, fun hnone => by cases hnone⟩
  have hdraws : ∀ l ∈ [(⟨ascii "NA", ascii "GOLD", ascii "17.3", ascii "ingest-1", 1,
      fun _ => soloDraw, [], 0⟩ : Lobby)], ∀ k, (l.draws k).Possible soloTables := by
    intro l hl k
    obtain rfl := List.mem_singleton.mp hl
    exact soloDraw_possible
  refine (synthetic_compositions hcomps _ hdraws (fun _ => 0) ⟨_, _, _⟩ _ 8).mpr ⟨by decide, ?_⟩
  decide

end Ingestion

end TftAnalytics

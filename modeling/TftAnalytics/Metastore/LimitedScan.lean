import TftAnalytics.Metastore.Helpers.Versions
import TftAnalytics.Metastore.Resolution
import TftAnalytics.Peers.Ring
import Mathlib.Data.Set.Card
/-!
# Metastore — what a limit costs a scan

The limit of a scan goes to the peers with the request, and each cuts its
own reply before the coordinator has compared versions. So a limited scan
returns as many distinct keys as it should, but a version may be missing
that only peers with more keys than the limit store. Over all orders in
which maps are iterated, a scan is up to date exactly where no such cut
matters (`limited_scan_iff`).
-/

namespace TftAnalytics

namespace Metastore

open Hasher Peers

namespace Snapshot

variable {s : Snapshot} {nd : Node} {req : ScanRequest} {key : GoString}

/-- A node of the cluster stores the version. -/
def Stored (s : Snapshot) (e : StatEntry) : Prop :=
  ∃ n p, s.nodes n = some p ∧ e ∈ p.lsm.store.tree.stored s.env.codec

/-- No stored version of its key is ranked above it by `pickNewer`. -/
def Newest (s : Snapshot) (e : StatEntry) : Prop :=
  ∀ v, s.Stored v → entryKey v = entryKey e → newerOf e v = e

/-- **All nodes are reachable**: the nodes of the cluster are the
coordinator and the peers that it fans out to. -/
structure Gathered (s : Snapshot) (nd : Node) : Prop where
  self : s.nodes nd.self = some nd
  peers : ∀ n, n ∈ nd.scanPeers ↔ n ≠ nd.self ∧ ∃ p, s.nodes n = some p

/-- The matching keys stored anywhere. -/
def storedKeys (s : Snapshot) (req : ScanRequest) : Set GoString :=
  {key | ∃ e, s.Stored e ∧ scanPredicate req e = true ∧ entryKey e = key}

/-- **A limited scan that is up to date**: as many entries as the limit and
the matching keys allow, with distinct keys, each a stored version that no
stored version of its key is ranked above. -/
structure UpToDate (s : Snapshot) (nd : Node) (req : ScanRequest) : Prop where
  length : (s.scan nd req).length = min req.limit.toNat (s.storedKeys req).ncard
  keys : ((s.scan nd req).map entryKey).Nodup
  stored : ∀ e ∈ s.scan nd req, s.Stored e
  newest : ∀ e ∈ s.scan nd req, s.Newest e

/-- The version of a key the coordinator selects when it hears of it from
these peers. -/
def heardVersion (s : Snapshot) (nd : Node) (req : ScanRequest) (heard : Finset GoString)
    (key : GoString) : Option StatEntry :=
  nd.scanPeers.foldl
    (fun best peer => pickNewer best (if peer ∈ heard then s.peerVersion req key peer else none))
    (s.version nd req key)

/-- **No cut matters**: whichever of the peers that hold more matching keys
than the limit are heard of for a key, besides all others, what `pickNewer`
selects is not ranked below any stored version. -/
def Settled (s : Snapshot) (nd : Node) (req : ScanRequest) : Prop :=
  ∀ key, ∀ heard : Finset GoString, (∀ peer ∈ nd.scanPeers, ¬ s.Cuts req peer → peer ∈ heard) →
    ∀ w, s.heardVersion nd req heard key = some w → s.Newest w

/-! ## What is merged -/

/-- The entries a scan merges. -/
def gatheredMap (s : Snapshot) (nd : Node) (req : ScanRequest) :
    AList fun _ : GoString => StatEntry :=
  nd.scanPeers.foldl (fun merged peer => (s.remoteScan req peer).foldl mergeEntry merged)
    (s.found nd req)

theorem gatheredMap_eq (s : Snapshot) (nd : Node) (req : ScanRequest) :
    s.gatheredMap nd req
      = (s.lsmScan nd req ++ nd.scanPeers.flatMap (s.remoteScan req)).foldl mergeEntry ∅ := by
  have hpeers : ∀ (peers : List GoString) (merged : AList fun _ : GoString => StatEntry),
      peers.foldl (fun merged peer => (s.remoteScan req peer).foldl mergeEntry merged) merged
        = (peers.flatMap (s.remoteScan req)).foldl mergeEntry merged := by
    intro peers
    induction peers with
    | nil => exact fun _ => rfl
    | cons peer peers ih =>
      intro merged
      rw [List.foldl_cons, ih, List.flatMap_cons, List.foldl_append]
  rw [gatheredMap, hpeers, List.foldl_append]
  rfl

theorem keyed_gatheredMap : Keyed (s.gatheredMap nd req) := by
  rw [gatheredMap_eq]
  exact keyed_empty.foldl _

/-- **What the coordinator selects** is decided by the peers it hears of. -/
theorem lookup_gatheredMap {heard : Finset GoString}
    (hheard : ∀ peer ∈ nd.scanPeers, (s.remoteScan req peer).filter (fun e => entryKey e = key)
      = (if peer ∈ heard then s.peerVersion req key peer else none).toList) :
    (s.gatheredMap nd req).lookup key = s.heardVersion nd req heard key := by
  have hfold : (s.gatheredMap nd req).lookup key = (s.heardVersion nd req heard key).map id := by
    refine lookup_foldl_remoteScan id _ (fun peer hpeer best => ?_) ?_
    · rw [hheard peer hpeer, Option.map_id, id_eq, id_eq]
      cases (if peer ∈ heard then s.peerVersion req key peer else none) with
      | none => cases best <;> rfl
      | some v => rfl
    · rw [Option.map_id]
      exact lookup_local key
  rw [hfold, Option.map_id, id_eq]

/-- A limited scan is the start of what was merged, in the coordinator's
order. -/
theorem Undecayed.scan_eq (h : s.Undecayed) (hlimit : 0 < req.limit) :
    s.scan nd req = ((s.order nd.self).order
      ((s.gatheredMap nd req).entries.map (·.2))).take req.limit.toNat :=
  h.reply_eq hlimit _

theorem Undecayed.lookup_of_mem_scan (h : s.Undecayed) (hlimit : 0 < req.limit) {e : StatEntry}
    (he : e ∈ s.scan nd req) : (s.gatheredMap nd req).lookup (entryKey e) = some e := by
  rw [h.scan_eq hlimit] at he
  exact keyed_gatheredMap.mem_values.mp
    (((s.order nd.self).perm _).mem_iff.mp (List.mem_of_mem_take he))

/-- **Whatever the orders are, some peers are heard of**, and all of those
that do not cut. -/
theorem Undecayed.exists_heard (h : s.Undecayed) (hlimit : 0 < req.limit) (nd : Node)
    (key : GoString) :
    ∃ heard : Finset GoString, (∀ peer ∈ nd.scanPeers, ¬ s.Cuts req peer → peer ∈ heard) ∧
      (s.gatheredMap nd req).lookup key = s.heardVersion nd req heard key := by
  classical
  refine ⟨nd.scanPeers.toFinset.filter fun peer =>
    ¬ s.Cuts req peer ∨ ∃ e ∈ s.remoteScan req peer, entryKey e = key, ?_, ?_⟩
  · intro peer hpeer hcuts
    exact Finset.mem_filter.mpr ⟨List.mem_toFinset.mpr hpeer, Or.inl hcuts⟩
  · refine lookup_gatheredMap fun peer hpeer => ?_
    by_cases hsends : ∃ e ∈ s.remoteScan req peer, entryKey e = key
    · obtain ⟨e, he, rfl⟩ := hsends
      rw [h.filter_remoteScan_of_mem hlimit he, if_pos]
      exact Finset.mem_filter.mpr ⟨List.mem_toFinset.mpr hpeer, Or.inr ⟨e, he, rfl⟩⟩
    · have hnil : (s.remoteScan req peer).filter (fun e => entryKey e = key) = [] := by
        refine List.filter_eq_nil_iff.mpr fun e he => ?_
        simpa using fun hkey : entryKey e = key => hsends ⟨e, he, hkey⟩
      rw [hnil]
      split_ifs with hmem
      · -- it does not cut, so it has no version
        have hcuts := ((Finset.mem_filter.mp hmem).2).resolve_right hsends
        rcases hv : s.peerVersion req key peer with _ | v
        · rfl
        · exact absurd (h.exists_mem_remoteScan hlimit hcuts hv) hsends
      · rfl

/-- The orders in which just these peers are heard of for the key, and the
coordinator returns it. -/
def witnessOrder (nd : Node) (heard : Finset GoString) (key : GoString) (n : GoString) :
    MapOrder :=
  if n ∈ heard ∨ n = nd.self then .front key else .back key

/-- **Any such peers can be the ones heard of.** -/
theorem Undecayed.lookup_witnessOrder (h : s.Undecayed) (hlimit : 0 < req.limit)
    {heard : Finset GoString}
    (hheard : ∀ peer ∈ nd.scanPeers, ¬ s.Cuts req peer → peer ∈ heard)
    (horder : s.order = witnessOrder nd heard key) :
    (s.gatheredMap nd req).lookup key = s.heardVersion nd req heard key := by
  refine lookup_gatheredMap fun peer hpeer => ?_
  have hself : peer ≠ nd.self := by
    have hne := (List.mem_filter.mp hpeer).2
    simp only [decide_eq_true_eq] at hne
    exact hne.1
  have hpos : 0 < req.limit.toNat := by omega
  cases hp : s.nodes peer with
  | none => simp [remoteScan, peerVersion, hp]
  | some p =>
    have hscan := h.remoteScan_eq hlimit hp
    have hversion : s.peerVersion req key peer = (s.found p req).lookup key := by
      rw [peerVersion, hp, Option.bind_some]
      exact (lookup_local key).symm
    by_cases hmem : peer ∈ heard
    · rw [if_pos hmem]
      rcases hv : s.peerVersion req key peer with _ | v
      · -- no version, so no entry
        refine List.filter_eq_nil_iff.mpr fun e he => ?_
        simp only [decide_eq_true_eq]
        rintro rfl
        have hone := h.filter_remoteScan_of_mem hlimit he
        rw [hv] at hone
        have : e ∈ (s.remoteScan req peer).filter fun x => entryKey x = entryKey e := by
          simp [he]
        rw [hone] at this
        cases this
      · have hlookup : (s.found p req).lookup key = some v := hversion.symm.trans hv
        have hin : v ∈ s.remoteScan req peer := by
          rw [hscan, horder, witnessOrder, if_pos (Or.inl hmem)]
          exact keyed_found.mem_take_front hlookup hpos
        have hkey : entryKey v = key := keyed_found key v hlookup
        rw [← hkey, h.filter_remoteScan_of_mem hlimit hin, hkey, hv]
    · rw [if_neg hmem]
      have hcuts : s.Cuts req peer := by
        by_contra hnot
        exact hmem (hheard peer hpeer hnot)
      obtain ⟨p', hp', hlt⟩ := hcuts
      obtain rfl : p = p' := Option.some.inj (hp.symm.trans hp')
      refine List.filter_eq_nil_iff.mpr fun e he => ?_
      rw [hscan, horder, witnessOrder, if_neg (not_or.mpr ⟨hmem, hself⟩)] at he
      have hne : entryKey e ≠ key :=
        keyed_found.not_mem_take_back (by rw [length_keys_found]; omega) he
      simpa using hne

/-! ## How many -/

theorem version_spec {p : Node} {e : StatEntry} (h : s.version p req key = some e) :
    e ∈ p.lsm.store.tree.stored s.env.codec ∧ scanPredicate req e = true ∧ entryKey e = key := by
  have hkey : entryKey e = key := keyed_scan _ _ _ key e h
  unfold version at h
  rw [LSMTree.scan_eq] at h
  obtain ⟨hmem, hkeep⟩ := List.mem_filter.mp (mem_of_lookup_merged h)
  exact ⟨hmem, hkeep, hkey⟩

/-- The versions of a key in what the coordinator hears from these peers. -/
def heardVersions (s : Snapshot) (nd : Node) (req : ScanRequest) (heard : Finset GoString)
    (key : GoString) : List StatEntry :=
  nd.scanPeers.filterMap fun peer => if peer ∈ heard then s.peerVersion req key peer else none

theorem mem_heardVersions {heard : Finset GoString} {v : StatEntry} :
    v ∈ s.heardVersions nd req heard key ↔
      ∃ peer ∈ nd.scanPeers, peer ∈ heard ∧ s.peerVersion req key peer = some v := by
  unfold heardVersions
  rw [List.mem_filterMap]
  refine exists_congr fun peer => and_congr_right fun _ => ?_
  split_ifs with hmem <;> simp [hmem]

/-- What is selected is folded out of what is heard. -/
theorem heardVersion_eq (heard : Finset GoString) :
    s.heardVersion nd req heard key = (s.heardVersions nd req heard key).foldl
      (fun o e => pickOption newerOf o (some e)) (s.version nd req key) := by
  rw [heardVersion, heardVersions, List.foldl_filterMap]
  congr 1
  funext best peer
  rw [pickNewer_eq_pickOption]
  cases (if peer ∈ heard then s.peerVersion req key peer else none) with
  | none => cases best <;> rfl
  | some v => rfl

/-- Something is selected when something is heard. -/
theorem heardVersion_isSome {heard : Finset GoString} :
    (s.heardVersion nd req heard key).isSome ↔ (s.version nd req key).isSome ∨
      ∃ peer ∈ nd.scanPeers, peer ∈ heard ∧ (s.peerVersion req key peer).isSome := by
  rw [heardVersion_eq, isSome_foldl_pickOption, Bool.or_eq_true, Bool.not_eq_true',
    List.isEmpty_eq_false_iff_exists_mem]
  refine or_congr_right ?_
  simp only [mem_heardVersions, Option.isSome_iff_exists]
  constructor
  · rintro ⟨v, peer, hpeer, hmem, hv⟩
    exact ⟨peer, hpeer, hmem, v, hv⟩
  · rintro ⟨peer, hpeer, hmem, v, hv⟩
    exact ⟨v, peer, hpeer, hmem, hv⟩

/-- What is selected is the coordinator's version or one heard of. -/
theorem heardVersion_mem {heard : Finset GoString} {w : StatEntry}
    (h : s.heardVersion nd req heard key = some w) : s.version nd req key = some w ∨
      ∃ peer ∈ nd.scanPeers, peer ∈ heard ∧ s.peerVersion req key peer = some w := by
  rw [heardVersion_eq] at h
  exact (mem_or_mem_of_mem_foldl newerOf_choice h).imp_right mem_heardVersions.mp

/-- The version of a peer is stored, and matches. -/
theorem stored_of_peerVersion {peer : GoString} {e : StatEntry}
    (he : s.peerVersion req key peer = some e) :
    s.Stored e ∧ scanPredicate req e = true ∧ entryKey e = key := by
  obtain ⟨p, hp, he⟩ := Option.bind_eq_some_iff.mp he
  obtain ⟨hmem, hkeep, hkey⟩ := version_spec he
  exact ⟨⟨peer, p, hp, hmem⟩, hkeep, hkey⟩

/-- **A peer that cuts fills the limit alone.** -/
theorem Undecayed.le_length_keys (h : s.Undecayed) (hlimit : 0 < req.limit) {peer : GoString}
    (hpeer : peer ∈ nd.scanPeers) (hcuts : s.Cuts req peer) :
    req.limit.toNat ≤ (s.gatheredMap nd req).keys.length := by
  obtain ⟨p, hp, hlt⟩ := hcuts
  have hreply := h.remoteScan_eq hlimit hp
  have hfull : (s.remoteScan req peer).length = req.limit.toNat := by
    rw [hreply, List.length_take, ((s.order peer).perm _).length_eq, length_values_found]
    omega
  have hin : (s.remoteScan req peer).map entryKey ⊆ (s.gatheredMap nd req).keys := by
    intro key hkey
    obtain ⟨e, he, rfl⟩ := List.mem_map.mp hkey
    have hmem : entryKey e ∈ s.gatheredMap nd req := by
      rw [gatheredMap_eq, mem_foldl_mergeEntry]
      exact ⟨e, List.mem_append_right _ (List.mem_flatMap.mpr ⟨peer, hpeer, he⟩), rfl⟩
    exact hmem
  have hdistinct : ((s.remoteScan req peer).map entryKey).Nodup :=
    hreply ▸ keyed_found.nodup_take ((s.order peer).perm _) _
  have hmany := (hdistinct.subperm hin).length_le
  rwa [List.length_map, hfull] at hmany

variable (hup : s.Gathered nd)

include hup

/-- The version of the coordinator is stored, and matches. -/
theorem Gathered.stored_of_version {e : StatEntry} (he : s.version nd req key = some e) :
    s.Stored e ∧ scanPredicate req e = true ∧ entryKey e = key := by
  obtain ⟨hmem, hkeep, hkey⟩ := version_spec he
  exact ⟨⟨nd.self, nd, hup.self, hmem⟩, hkeep, hkey⟩

/-- A key is stored where the coordinator or a peer has a version. -/
theorem Gathered.mem_storedKeys : key ∈ s.storedKeys req ↔ (s.version nd req key).isSome ∨
    ∃ peer ∈ nd.scanPeers, (s.peerVersion req key peer).isSome := by
  have hnode : ∀ {p : Node} {e : StatEntry}, e ∈ p.lsm.store.tree.stored s.env.codec →
      scanPredicate req e = true → entryKey e = key → (s.version p req key).isSome := by
    intro p e he hkeep hkey
    rw [version_isSome, matchingKeys, List.mem_toFinset, List.mem_map]
    exact ⟨e, List.mem_filter.mpr ⟨he, hkeep⟩, hkey⟩
  constructor
  · rintro ⟨e, ⟨n, p, hp, he⟩, hkeep, hkey⟩
    by_cases hn : n = nd.self
    · subst hn
      obtain rfl : nd = p := Option.some.inj (hup.self.symm.trans hp)
      exact Or.inl (hnode he hkeep hkey)
    · refine Or.inr ⟨n, (hup.peers n).mpr ⟨hn, p, hp⟩, ?_⟩
      rw [peerVersion, hp]
      exact hnode he hkeep hkey
  · rintro (hown | ⟨peer, -, hpeer⟩)
    · obtain ⟨e, he⟩ := Option.isSome_iff_exists.mp hown
      exact ⟨e, hup.stored_of_version he⟩
    · obtain ⟨e, he⟩ := Option.isSome_iff_exists.mp hpeer
      exact ⟨e, stored_of_peerVersion he⟩

theorem Gathered.finite_storedKeys : (s.storedKeys req).Finite := by
  refine ((s.matchingKeys nd req ∪ nd.scanPeers.toFinset.biUnion fun peer =>
    (s.nodes peer).elim ∅ fun p => s.matchingKeys p req).finite_toSet).subset fun key hkey => ?_
  rw [Finset.mem_coe, Finset.mem_union, Finset.mem_biUnion]
  rcases hup.mem_storedKeys.mp hkey with hown | ⟨peer, hpeer, hsome⟩
  · exact Or.inl (version_isSome.mp hown)
  · refine Or.inr ⟨peer, List.mem_toFinset.mpr hpeer, ?_⟩
    unfold peerVersion at hsome
    cases hp : s.nodes peer with
    | none => simp [hp] at hsome
    | some p =>
      rw [hp] at hsome
      exact version_isSome.mp hsome

/-- What is selected is stored, and matches. -/
theorem Gathered.stored_of_heardVersion {heard : Finset GoString} {e : StatEntry}
    (he : s.heardVersion nd req heard key = some e) :
    s.Stored e ∧ scanPredicate req e = true ∧ entryKey e = key := by
  rcases heardVersion_mem he with hown | ⟨peer, -, -, hpeer⟩
  · exact hup.stored_of_version hown
  · exact stored_of_peerVersion hpeer

/-- A merged entry is stored, and matches. -/
theorem Gathered.stored_of_lookup (h : s.Undecayed) (hlimit : 0 < req.limit) {e : StatEntry}
    (he : (s.gatheredMap nd req).lookup key = some e) :
    s.Stored e ∧ scanPredicate req e = true ∧ entryKey e = key := by
  obtain ⟨heard, -, hheard⟩ := h.exists_heard hlimit nd key
  exact hup.stored_of_heardVersion (hheard ▸ he)

/-- **A limited scan has as many entries as it should**, cut or not. -/
theorem Gathered.length_scan (h : s.Undecayed) (hlimit : 0 < req.limit) :
    (s.scan nd req).length = min req.limit.toNat (s.storedKeys req).ncard := by
  classical
  set keys := (s.gatheredMap nd req).keys with hkeys
  have hnodup : keys.Nodup := AList.keys_nodup _
  have hlen : (s.scan nd req).length = min req.limit.toNat keys.length := by
    rw [h.scan_eq hlimit, List.length_take, ((s.order nd.self).perm _).length_eq, hkeys,
      ← keyed_gatheredMap.map_entryKey]
    simp
  have hsub : (↑keys.toFinset : Set GoString) ⊆ s.storedKeys req := by
    intro key hkey
    have hmem : key ∈ s.gatheredMap nd req := List.mem_toFinset.mp hkey
    obtain ⟨e, he⟩ := Option.isSome_iff_exists.mp (AList.lookup_isSome.mpr hmem)
    exact ⟨e, hup.stored_of_lookup h hlimit he⟩
  have hcard : keys.length = (↑keys.toFinset : Set GoString).ncard := by
    rw [Set.ncard_coe_finset, List.toFinset_card_of_nodup hnodup]
  have hle : keys.length ≤ (s.storedKeys req).ncard :=
    hcard ▸ Set.ncard_le_ncard hsub hup.finite_storedKeys
  by_cases hcuts : ∃ peer ∈ nd.scanPeers, s.Cuts req peer
  · obtain ⟨peer, hpeer, hcuts⟩ := hcuts
    have hmany := h.le_length_keys hlimit hpeer hcuts
    rw [hlen, min_eq_left hmany, min_eq_left (hmany.trans hle)]
  · -- nothing is cut, so nothing is missing
    push Not at hcuts
    have hall : s.storedKeys req ⊆ ↑keys.toFinset := by
      intro key hkey
      obtain ⟨heard, hheard, hlookup⟩ := h.exists_heard hlimit nd key
      have hsome : (s.heardVersion nd req heard key).isSome := by
        rw [heardVersion_isSome]
        refine (hup.mem_storedKeys.mp hkey).imp_right ?_
        rintro ⟨peer, hpeer, hv⟩
        exact ⟨peer, hpeer, hheard peer hpeer (hcuts peer hpeer), hv⟩
      rw [← hlookup, AList.lookup_isSome] at hsome
      exact List.mem_toFinset.mpr hsome
    have hge : (s.storedKeys req).ncard ≤ keys.length :=
      hcard ▸ Set.ncard_le_ncard hall (Finset.finite_toSet _)
    rw [hlen, le_antisymm hle hge]

/-! ## How recent -/

/-- **Limited scans and cuts.** Over all orders in which maps are iterated,
a limited scan is up to date exactly if no cut matters. -/
theorem Gathered.upToDate_iff (h : s.Undecayed) (hlimit : 0 < req.limit) :
    (∀ order, ({ s with order := order } : Snapshot).UpToDate nd req) ↔ s.Settled nd req := by
  constructor
  · intro hall key heard hheard w hw
    -- the orders in which just these peers are heard of
    set s' : Snapshot := { s with order := witnessOrder nd heard key } with hs'
    have h' : s'.Undecayed := h
    have hlookup : (s'.gatheredMap nd req).lookup key = some w :=
      (h'.lookup_witnessOrder hlimit hheard rfl).trans hw
    have hpos : 0 < req.limit.toNat := by omega
    have hmem : w ∈ s'.scan nd req := by
      have hfront : s'.order nd.self = .front key := if_pos (Or.inr rfl)
      rw [h'.scan_eq hlimit, hfront]
      exact keyed_gatheredMap.mem_take_front hlookup hpos
    exact (hall (witnessOrder nd heard key)).newest w hmem
  · intro hsettled order
    set s' : Snapshot := { s with order := order } with hs'
    have h' : s'.Undecayed := h
    have hup' : s'.Gathered nd := ⟨hup.self, hup.peers⟩
    have hlookup : ∀ e ∈ s'.scan nd req, (s'.gatheredMap nd req).lookup (entryKey e) = some e :=
      fun e he => h'.lookup_of_mem_scan hlimit he
    refine ⟨hup'.length_scan h' hlimit, ?_, fun e he => ?_, fun e he => ?_⟩
    · rw [h'.scan_eq hlimit]
      exact keyed_gatheredMap.nodup_take ((s'.order nd.self).perm _) _
    · exact (hup'.stored_of_lookup h' hlimit (hlookup e he)).1
    · obtain ⟨heard, hheard, heq⟩ := h'.exists_heard hlimit nd (entryKey e)
      exact hsettled (entryKey e) heard hheard e (heq.symm.trans (hlookup e he))

/-- **A full answer has the newest version, or every answer has.** For each
key, the coordinator or a peer with no more matching keys than the limit
has a version that no stored one is ranked above, or whoever has a version
has such a one. -/
def Covered (s : Snapshot) (nd : Node) (req : ScanRequest) : Prop :=
  ∀ key, (∃ w, (s.version nd req key = some w ∨
      ∃ peer ∈ nd.scanPeers, ¬ s.Cuts req peer ∧ s.peerVersion req key peer = some w) ∧
        s.Newest w) ∨
    ∀ w, (s.version nd req key = some w ∨
      ∃ peer ∈ nd.scanPeers, s.peerVersion req key peer = some w) → s.Newest w

omit hup

/-- Ranked by a number, newest is largest. -/
theorem newest_iff (hclocked : ∀ v, s.Stored v → Clocked v) {w : StatEntry} (hw : s.Stored w) :
    s.Newest w ↔ ∀ v, s.Stored v → entryKey v = entryKey w → clockRank v ≤ clockRank w := by
  refine forall_congr' fun v => forall_congr' fun hv => forall_congr' fun _ => ?_
  rw [newerOf_eq (hclocked w hw) (hclocked v hv)]
  constructor
  · intro h
    by_contra hlt
    rw [if_pos (not_le.mp hlt)] at h
    exact hlt (h ▸ le_rfl)
  · exact fun hle => if_neg (not_lt.mpr hle)

/-- What is selected outranks what was heard. -/
theorem le_heardVersion {heard : Finset GoString} {w : StatEntry}
    (hown : ∀ x, s.version nd req key = some x → Clocked x)
    (hpeers : ∀ peer ∈ nd.scanPeers, ∀ x, s.peerVersion req key peer = some x → Clocked x)
    (hw : s.heardVersion nd req heard key = some w) :
    (∀ x, s.version nd req key = some x → clockRank x ≤ clockRank w) ∧
      ∀ peer ∈ nd.scanPeers, peer ∈ heard →
        ∀ x, s.peerVersion req key peer = some x → clockRank x ≤ clockRank w := by
  have hclocked : ∀ x ∈ s.heardVersions nd req heard key, x ∈ {e | Clocked e} := by
    intro x hx
    obtain ⟨peer, hpeer, -, hx⟩ := mem_heardVersions.mp hx
    exact hpeers peer hpeer x hx
  have hrank := choosesMax_newerOf.optRank_foldl hclocked (fun x hx => hown x hx)
  rw [← heardVersion_eq, hw, optRank_some] at hrank
  refine ⟨fun x hx => ?_, fun peer hpeer hmem x hx => ?_⟩
  · rw [hx, optRank_some] at hrank
    exact WithBot.coe_le_coe.mp (hrank ▸ le_max_left _ _)
  · have hle : ↑(clockRank x) ≤ topRank clockRank (s.heardVersions nd req heard key) :=
      le_topRank (mem_heardVersions.mpr ⟨peer, hpeer, hmem, hx⟩)
    exact WithBot.coe_le_coe.mp (hle.trans (hrank ▸ le_max_right _ _))

/-- A peer can be the only one heard of for a key, where none of those that
do not cut has a version, nor the coordinator. -/
theorem heardVersion_insert {full : Finset GoString} {peer : GoString} {w : StatEntry}
    (hpeer : peer ∈ nd.scanPeers) (hw : s.peerVersion req key peer = some w)
    (hnone : s.heardVersion nd req full key = none) :
    s.heardVersion nd req (insert peer full) key = some w := by
  have hnot := mt heardVersion_isSome.mpr (by rw [hnone]; simp)
  rw [not_or] at hnot
  obtain ⟨x, hx⟩ := Option.isSome_iff_exists.mp (heardVersion_isSome.mpr
    (Or.inr ⟨peer, hpeer, Finset.mem_insert_self peer full, by rw [hw]; rfl⟩))
  rw [hx]
  rcases heardVersion_mem hx with hown | ⟨other, hother, hmem, hv⟩
  · exact absurd (by rw [hown]; rfl) hnot.1
  · rcases Finset.mem_insert.mp hmem with rfl | hmem
    · exact hv.symm.trans hw
    · exact absurd ⟨other, hother, hmem, by rw [hv]; rfl⟩ hnot.2

theorem Settled.covered (hsettled : s.Settled nd req) : s.Covered nd req := by
  classical
  intro key
  -- hear of no peer that cuts
  set full := nd.scanPeers.toFinset.filter fun peer => ¬ s.Cuts req peer with hfull
  have hmemFull : ∀ peer, peer ∈ full ↔ peer ∈ nd.scanPeers ∧ ¬ s.Cuts req peer := by
    intro peer
    rw [hfull, Finset.mem_filter, List.mem_toFinset]
  have hheard : ∀ peer ∈ nd.scanPeers, ¬ s.Cuts req peer → peer ∈ full :=
    fun peer hpeer hcuts => (hmemFull peer).mpr ⟨hpeer, hcuts⟩
  rcases hw : s.heardVersion nd req full key with _ | w
  · -- then none has a version, and each of the others can be heard alone
    refine Or.inr fun w hversion => ?_
    rcases hversion with hown | ⟨peer, hpeer, hversion⟩
    · have hsome : (s.heardVersion nd req full key).isSome :=
        heardVersion_isSome.mpr (Or.inl (by rw [hown]; rfl))
      rw [hw] at hsome
      cases hsome
    · exact hsettled key _ (fun other hother hcuts =>
        Finset.mem_insert_of_mem (hheard other hother hcuts)) w
          (heardVersion_insert hpeer hversion hw)
  · refine Or.inl ⟨w, ?_, hsettled key full hheard w hw⟩
    refine (heardVersion_mem hw).imp_right ?_
    rintro ⟨peer, hpeer, hmem, hv⟩
    exact ⟨peer, hpeer, ((hmemFull peer).mp hmem).2, hv⟩

theorem Covered.settled (hcovered : s.Covered nd req) (hup : s.Gathered nd)
    (hclocked : ∀ v, s.Stored v → Clocked v) : s.Settled nd req := by
  intro key heard hheard w hw
  rcases hcovered key with ⟨top, htop, hnewest⟩ | hall
  · obtain ⟨hleOwn, hlePeer⟩ := le_heardVersion
      (fun x hx => hclocked x (hup.stored_of_version hx).1)
      (fun peer _ x hx => hclocked x (stored_of_peerVersion hx).1) hw
    have hle : clockRank top ≤ clockRank w := by
      rcases htop with hown | ⟨peer, hpeer, hcuts, hversion⟩
      · exact hleOwn top hown
      · exact hlePeer peer hpeer (hheard peer hpeer hcuts) top hversion
    obtain ⟨hstoredTop, -, hkeyTop⟩ :
        s.Stored top ∧ scanPredicate req top = true ∧ entryKey top = key := by
      rcases htop with hown | ⟨peer, -, -, hv⟩
      · exact hup.stored_of_version hown
      · exact stored_of_peerVersion hv
    obtain ⟨hstored, -, hkey⟩ := hup.stored_of_heardVersion hw
    rw [newest_iff hclocked hstoredTop] at hnewest
    refine (newest_iff hclocked hstored).mpr fun v hv hkeyv => (hnewest v hv ?_).trans hle
    rw [hkeyv, hkey, hkeyTop]
  · refine hall w ((heardVersion_mem hw).imp_right ?_)
    rintro ⟨peer, hpeer, -, hv⟩
    exact ⟨peer, hpeer, hv⟩

/-- **When limited scans are up to date**, in a cluster whose nodes are all
reachable: over all orders of map iteration, exactly if no cut matters. On
clocks that `pickNewer` ranks, that is to say for each key that a node that
answers in full has the newest version, or every node with a version has. -/
theorem limited_scan_iff (s : Snapshot) (nd : Node) (req : ScanRequest) (hup : s.Gathered nd)
    (h : s.Undecayed) (hlimit : 0 < req.limit) :
    ((∀ order, ({ s with order := order } : Snapshot).UpToDate nd req) ↔ s.Settled nd req) ∧
      ((∀ v, s.Stored v → Clocked v) → (s.Settled nd req ↔ s.Covered nd req)) :=
  ⟨hup.upToDate_iff h hlimit,
    fun hclocked => ⟨Settled.covered, fun hcovered => hcovered.settled hup hclocked⟩⟩

/-! ## A cut that matters -/

/-- The encodings of two versions of one key, and of another key. -/
def cutEnv : Env where
  codec := .ofTable
    [(sampleEntry 97 1, [10, 1, 97, 82, 7, 10, 5, 10, 1, 110, 16, 1]),
      (sampleEntry 97 2, [10, 1, 97, 82, 7, 10, 5, 10, 1, 110, 16, 2]),
      (sampleEntry 98 2, [10, 1, 98, 82, 7, 10, 5, 10, 1, 110, 16, 2])] (by decide)
  nano := fun n => n
  nano_strictMono := strictMono_id

/-- A node with the older version of the key. -/
def olderNode : Node := .boot [97] [[98]] (history cutEnv 0 [.write (sampleEntry 97 1) .ok]) 0

/-- Its peer, with the newer version and another key. -/
def newerNode : Node :=
  .boot [98] [[97]]
    (history cutEnv 0 [.write (sampleEntry 97 2) .ok, .write (sampleEntry 98 2) .ok]) 0

/-- The two of them; the peer's map gives the other key first. -/
def cutPair : Snapshot where
  env := cutEnv
  nodes := fun n => if n = [97] then some olderNode else if n = [98] then some newerNode else none
  self_eq := by
    intro n nd hnd
    split_ifs at hnd with h₁ h₂
    · obtain rfl : olderNode = nd := by simpa using hnd
      exact h₁.symm
    · obtain rfl : newerNode = nd := by simpa using hnd
      exact h₂.symm
    · cases hnd
  currentPatch := fun _ => []
  age := 0
  decayedSampleSize := fun n _ => n
  order := witnessOrder olderNode ∅ (entryKey (sampleEntry 97 1))

/-- A scan of everything for one entry. -/
def scanOne : ScanRequest := ⟨[], [], [], [], 1⟩

theorem scanPeers_olderNode : olderNode.scanPeers = [[98]] := by
  have hnodes : olderNode.member.host.ring.nodes = {[97], [98]} := by
    have hring : olderNode.member.host.ring = newRing [[97], [98]] :=
      Node.ring_boot [97] [[98]] _ 0
    rw [hring, newRing_nodes]
    rfl
  unfold Node.scanPeers
  rw [hnodes, Finset.sort_insert (· ≤ ·) (by decide) (by decide), Finset.sort_singleton]
  decide

theorem gathered_cutPair : cutPair.Gathered olderNode where
  self := rfl
  peers := by
    intro n
    rw [scanPeers_olderNode, List.mem_singleton]
    constructor
    · rintro rfl
      exact ⟨by decide, newerNode, rfl⟩
    · rintro ⟨hne, p, hp⟩
      have hne : n ≠ [97] := hne
      by_contra hnot
      simp [cutPair, hne, hnot] at hp

theorem limited_scan_iff_cutPair :
    (∀ order, ({ cutPair with order := order } : Snapshot).UpToDate olderNode scanOne) ↔
      cutPair.Settled olderNode scanOne :=
  (limited_scan_iff cutPair olderNode scanOne gathered_cutPair (fun _ _ => rfl) (by decide)).1

/-- **A limit can bring back an older version**: the peer cuts the newer
one off its reply, and the coordinator returns its own. -/
theorem not_upToDate : ¬ ∀ (s : Snapshot) (nd : Node) (req : ScanRequest), s.Gathered nd →
    s.Undecayed → 0 < req.limit → s.UpToDate nd req := by
  intro h
  have hup := h cutPair olderNode scanOne gathered_cutPair (fun _ _ => rfl) (by decide)
  have hmem : sampleEntry 97 1 ∈ cutPair.scan olderNode scanOne := by
    unfold scan
    rw [scanPeers_olderNode]
    decide
  have hstored : cutPair.Stored (sampleEntry 97 2) := ⟨[98], newerNode, rfl, by decide⟩
  have hnewer := hup.newest _ hmem _ hstored (by decide)
  exact absurd hnewer (by decide)

end Snapshot

end Metastore

end TftAnalytics

import TftAnalytics.Metastore.Helpers.Snapshot
/-!
# Metastore — the versions a tree stores, and what a limit leaves

Helper layer. A scan of a tree is the merge of the stored versions that
match. A reply that is cut at a limit has distinct keys, as many as the
limit and the merged entries allow, and which of them it keeps is up to
the order of the map: any key that is there can come first, and any can
come last.
-/

namespace TftAnalytics

namespace Metastore

/-! ## Stored versions -/

/-- The versions a tree stores, in the order of `Scan`. A table that does
not decode stores none that can be read. -/
def LSMTree.stored (t : LSMTree) (c : Codec) : List StatEntry :=
  t.memtable.scan (fun _ => true) ++ (t.immutable.map fun m => m.scan fun _ => true).getD [] ++
    t.levels.flatten.flatMap fun sst => (sst.scan c fun _ => true).getD []

/-- Filtering in the sources is filtering what they hold. -/
theorem SSTable.scan_filter (sst : SSTable) (c : Codec) (keep : StatEntry → Bool) :
    (sst.scan c keep).getD [] = ((sst.scan c fun _ => true).getD []).filter keep := by
  unfold SSTable.scan
  cases sst.data.mapM fun r => sst.get c r.1 with
  | none => rfl
  | some es => simp

theorem MemTable.scan_filter (m : MemTable) (keep : StatEntry → Bool) :
    m.scan keep = (m.scan fun _ => true).filter keep := by
  simp [MemTable.scan]

/-- **A scan is the merge of the versions that match.** -/
theorem LSMTree.scan_eq (t : LSMTree) (c : Codec) (keep : StatEntry → Bool) :
    t.scan c keep = ((t.stored c).filter keep).foldl mergeEntry ∅ := by
  have himm : (t.immutable.map fun m => m.scan keep).getD []
      = ((t.immutable.map fun m => m.scan fun _ => true).getD []).filter keep := by
    cases t.immutable with
    | none => rfl
    | some m => exact m.scan_filter keep
  -- the loops over tables and levels are folds over what they hold
  have htables : ∀ (tables : List SSTable) (merged : AList fun _ : GoString => StatEntry),
      tables.foldl (fun merged sst => ((sst.scan c keep).getD []).foldl mergeEntry merged) merged
        = ((tables.flatMap fun sst => (sst.scan c fun _ => true).getD []).filter keep).foldl
            mergeEntry merged := by
    intro tables
    induction tables with
    | nil => exact fun _ => rfl
    | cons sst tables ih =>
      intro merged
      rw [List.foldl_cons, ih, List.flatMap_cons, List.filter_append, List.foldl_append,
        sst.scan_filter]
  have hlevels : ∀ (levels : List (List SSTable)) (merged : AList fun _ : GoString => StatEntry),
      levels.foldl (fun merged tables => tables.foldl (fun merged sst =>
          ((sst.scan c keep).getD []).foldl mergeEntry merged) merged) merged
        = ((levels.flatten.flatMap fun sst => (sst.scan c fun _ => true).getD []).filter
            keep).foldl mergeEntry merged := by
    intro levels
    induction levels with
    | nil => exact fun _ => rfl
    | cons tables levels ih =>
      intro merged
      rw [List.foldl_cons, ih, htables, List.flatten_cons, List.flatMap_append, List.filter_append,
        List.foldl_append]
  simp only [LSMTree.scan, LSMTree.stored, hlevels, himm, List.filter_append, List.foldl_append,
    t.memtable.scan_filter keep]

/-! ## The values of a merged map -/

/-- Merging entries makes a map of their keys. -/
theorem mem_foldl_mergeEntry {es : List StatEntry} {key : GoString} :
    key ∈ es.foldl mergeEntry ∅ ↔ ∃ e ∈ es, entryKey e = key := by
  rw [← AList.lookup_isSome, lookup_foldl_mergeEntry, pickNewer_eq_pickOption,
    isSome_foldl_pickOption, AList.lookup_empty]
  simp only [Option.isSome_none, Bool.false_or, Bool.not_eq_true',
    List.isEmpty_eq_false_iff_exists_mem, List.mem_filter, decide_eq_true_eq]

/-- A merged entry is one of those merged. -/
theorem mem_of_lookup_merged {es : List StatEntry} {key : GoString} {e : StatEntry}
    (h : (es.foldl mergeEntry ∅).lookup key = some e) : e ∈ es := by
  rw [lookup_foldl_mergeEntry, pickNewer_eq_pickOption, AList.lookup_empty] at h
  rcases mem_or_mem_of_mem_foldl newerOf_choice h with hnone | hin
  · cases hnone
  · exact (List.mem_filter.mp hin).1

variable {m : AList fun _ : GoString => StatEntry}

theorem Keyed.map_entryKey (h : Keyed m) : (m.entries.map (·.2)).map entryKey = m.keys := by
  rw [List.map_map, AList.keys, List.keys]
  refine List.map_congr_left fun p hp => ?_
  exact h p.1 p.2 (AList.mem_lookup_iff.mpr hp)

theorem Keyed.mem_values (h : Keyed m) {e : StatEntry} :
    e ∈ m.entries.map (·.2) ↔ m.lookup (entryKey e) = some e := by
  have hfilter : e ∈ m.entries.map (·.2) ↔
      e ∈ (m.entries.map (·.2)).filter fun x => entryKey x = entryKey e := by simp
  rw [hfilter, h.filter_values, Option.mem_toList]

theorem Keyed.nodup_take (h : Keyed m) {values : List StatEntry}
    (hperm : values.Perm (m.entries.map (·.2))) (n : ℕ) : ((values.take n).map entryKey).Nodup := by
  have hall : (values.map entryKey).Nodup :=
    ((hperm.map entryKey).nodup_iff).mpr (h.map_entryKey ▸ m.keys_nodup)
  exact hall.sublist ((List.take_sublist n values).map entryKey)

/-- What a limit leaves of a map of merged entries. -/
theorem Keyed.filter_take (h : Keyed m) {values : List StatEntry}
    (hperm : values.Perm (m.entries.map (·.2))) {n : ℕ} {e : StatEntry} (he : e ∈ values.take n) :
    (values.take n).filter (fun x => entryKey x = entryKey e) = (m.lookup (entryKey e)).toList := by
  have hall : values.filter (fun x => entryKey x = entryKey e)
      = (m.lookup (entryKey e)).toList := by
    refine perm_toList ?_
    rw [← h.filter_values]
    exact hperm.filter _
  have hlookup : m.lookup (entryKey e) = some e :=
    h.mem_values.mp (hperm.mem_iff.mp (List.mem_of_mem_take he))
  rw [hlookup] at hall ⊢
  -- the one entry of the key is in the part that is left
  have hsub : ((values.take n).filter fun x => entryKey x = entryKey e).Sublist [e] := by
    have hsub := (List.take_sublist n values).filter fun x => entryKey x = entryKey e
    rwa [hall] at hsub
  refine hsub.eq_of_length_le ?_
  exact List.length_pos_of_mem (List.mem_filter.mpr ⟨he, by simp⟩)

/-! ## Orders of a map -/

/-- The values of a key first. -/
def MapOrder.front (key : GoString) : MapOrder where
  order l := l.filter (fun e => entryKey e = key) ++ l.filter fun e => ¬ entryKey e = key
  perm l := by
    simpa using List.filter_append_perm (fun e => decide (entryKey e = key)) l

/-- The values of a key last. -/
def MapOrder.back (key : GoString) : MapOrder where
  order l := l.filter (fun e => ¬ entryKey e = key) ++ l.filter fun e => entryKey e = key
  perm l := by
    refine List.perm_append_comm.trans ?_
    simpa using List.filter_append_perm (fun e => decide (entryKey e = key)) l

theorem Keyed.mem_take_front (h : Keyed m) {key : GoString} {e : StatEntry}
    (he : m.lookup key = some e) {n : ℕ} (hn : 0 < n) :
    e ∈ ((MapOrder.front key).order (m.entries.map (·.2))).take n := by
  obtain ⟨n, rfl⟩ : ∃ k, n = k + 1 := ⟨n - 1, by omega⟩
  simp only [MapOrder.front, h.filter_values, he]
  exact List.mem_cons_self ..

theorem Keyed.not_mem_take_back (h : Keyed m) {key : GoString} {n : ℕ}
    (hn : n < m.keys.length) {x : StatEntry}
    (hx : x ∈ ((MapOrder.back key).order (m.entries.map (·.2))).take n) : entryKey x ≠ key := by
  have hsplit := List.length_eq_length_filter_add (l := m.entries.map (·.2))
    fun e => decide (entryKey e = key)
  have hlen : (m.entries.map (·.2)).length = m.keys.length := by
    rw [← h.map_entryKey]
    simp
  have hone : ((m.lookup key).toList).length ≤ 1 := by cases m.lookup key <;> simp
  rw [h.filter_values, hlen] at hsplit
  have hrest : n ≤ ((m.entries.map (·.2)).filter fun e => ¬ entryKey e = key).length := by
    simp only [decide_not]
    omega
  simp only [MapOrder.back] at hx
  rw [List.take_append_of_le_length hrest] at hx
  simpa using (List.mem_filter.mp (List.mem_of_mem_take hx)).2

namespace Snapshot

variable {s : Snapshot} {nd : Node} {req : ScanRequest}

/-- Decay is left out of account. -/
def Undecayed (s : Snapshot) : Prop := ∀ n age, s.decayedSampleSize n age = n

theorem Undecayed.decay_eq (h : s.Undecayed) (nd : Node) (e : StatEntry) : s.decay nd e = e := by
  unfold decay applyDecay
  split_ifs
  · rw [h]
  · rfl

/-- **A limited reply**: the first entries in the order of the map. -/
theorem Undecayed.reply_eq (h : s.Undecayed) (hlimit : 0 < req.limit)
    (m : AList fun _ : GoString => StatEntry) :
    s.reply nd req m
      = ((s.order nd.self).order (m.entries.map (·.2))).take req.limit.toNat := by
  have hdecay : s.decay nd = id := funext fun e => h.decay_eq nd e
  simp only [reply, hdecay, List.map_id]
  split_ifs with hcut
  · rfl
  · rw [List.take_of_length_le]
    have hle := not_and.mp hcut hlimit
    omega

/-! ## What a node replies -/

/-- The matching keys a node stores. -/
def matchingKeys (s : Snapshot) (nd : Node) (req : ScanRequest) : Finset GoString :=
  (((nd.lsm.store.tree.stored s.env.codec).filter (scanPredicate req)).map entryKey).toFinset

theorem version_isSome {key : GoString} :
    (s.version nd req key).isSome ↔ key ∈ s.matchingKeys nd req := by
  unfold version matchingKeys
  rw [LSMTree.scan_eq, AList.lookup_isSome, mem_foldl_mergeEntry, List.mem_toFinset, List.mem_map]

/-- The map a node replies from. -/
def found (s : Snapshot) (nd : Node) (req : ScanRequest) : AList fun _ : GoString => StatEntry :=
  (s.lsmScan nd req).foldl mergeEntry ∅

theorem keyed_found : Keyed (s.found nd req) := keyed_empty.foldl _

theorem length_keys_found : (s.found nd req).keys.length = (s.matchingKeys nd req).card := by
  have hkeys : (s.found nd req).keys.toFinset = s.matchingKeys nd req := by
    ext key
    rw [List.mem_toFinset, ← version_isSome, ← lookup_local, AList.lookup_isSome]
    rfl
  rw [← hkeys, List.toFinset_card_of_nodup (AList.keys_nodup _)]

theorem length_values_found :
    ((s.found nd req).entries.map (·.2)).length = (s.matchingKeys nd req).card := by
  rw [← length_keys_found, ← keyed_found.map_entryKey, List.length_map entryKey]

/-- A node up whose matching keys exceed the limit. -/
def Cuts (s : Snapshot) (req : ScanRequest) (peer : GoString) : Prop :=
  ∃ p, s.nodes peer = some p ∧ req.limit < (s.matchingKeys p req).card

theorem Undecayed.remoteScan_eq (h : s.Undecayed) (hlimit : 0 < req.limit) {peer : GoString}
    {p : Node} (hp : s.nodes peer = some p) :
    s.remoteScan req peer
      = ((s.order peer).order ((s.found p req).entries.map (·.2))).take req.limit.toNat := by
  unfold remoteScan
  rw [hp, ← s.self_eq peer p hp]
  exact h.reply_eq hlimit _

/-- **What a peer contributes for a key**, cut: its version, or nothing. -/
theorem Undecayed.filter_remoteScan_of_mem (h : s.Undecayed) (hlimit : 0 < req.limit)
    {peer : GoString} {e : StatEntry} (he : e ∈ s.remoteScan req peer) :
    (s.remoteScan req peer).filter (fun x => entryKey x = entryKey e)
      = (s.peerVersion req (entryKey e) peer).toList := by
  cases hp : s.nodes peer with
  | none =>
    unfold remoteScan at he
    rw [hp] at he
    cases he
  | some p =>
    rw [h.remoteScan_eq hlimit hp] at he ⊢
    rw [keyed_found.filter_take ((s.order peer).perm _) he, peerVersion, hp, Option.bind_some,
      ← lookup_local]
    rfl

/-- A peer that does not cut contributes every version. -/
theorem Undecayed.exists_mem_remoteScan (h : s.Undecayed) (hlimit : 0 < req.limit)
    {peer key : GoString} {v : StatEntry} (hcuts : ¬ s.Cuts req peer)
    (hv : s.peerVersion req key peer = some v) : ∃ e ∈ s.remoteScan req peer, entryKey e = key := by
  obtain ⟨p, hp, hv⟩ := Option.bind_eq_some_iff.mp hv
  have hle : ¬ req.limit < (s.matchingKeys p req).card := fun hlt => hcuts ⟨p, hp, hlt⟩
  have hkey : entryKey v = key := keyed_scan _ _ _ key v hv
  have hmem : v ∈ (s.found p req).entries.map (·.2) := by
    rw [keyed_found.mem_values, hkey]
    exact (lookup_local key).trans hv
  refine ⟨v, ?_, hkey⟩
  rw [h.remoteScan_eq hlimit hp, List.take_of_length_le]
  · exact ((s.order peer).perm _).mem_iff.mpr hmem
  · rw [((s.order peer).perm _).length_eq, length_values_found]
    omega

end Snapshot

end Metastore

end TftAnalytics

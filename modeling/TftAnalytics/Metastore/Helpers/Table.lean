import TftAnalytics.Metastore.Model.Lsm
import TftAnalytics.Metastore.Helpers.VClock
/-!
# Metastore — tables by rank

Helper layer. The reads, flushes and merges of the tree are followed
through a ranking of entries that `pickNewer` selects by. Here are the
parts: a memtable that holds what was put, a table that holds what was
written, a merge whose entry for a key has the largest rank among the
sources.
-/

namespace TftAnalytics

namespace Metastore

/-- **A ranking of entries that `pickNewer` selects by**, among entries of
one key that are `Ok`. -/
structure Ranking (ρ : Type*) [LinearOrder ρ] where
  rank : StatEntry → ρ
  Ok : StatEntry → Prop
  choosesMax : ∀ key, ChoosesMax newerOf rank {e | Ok e ∧ entryKey e = key}

variable {ρ : Type*} [LinearOrder ρ] (R : Ranking ρ) (c : Codec)

/-- The entries a store may hold under a key: they are ranked, have that
key, and marshal. -/
def Storable (key : GoString) : Set StatEntry :=
  {e | R.Ok e ∧ entryKey e = key ∧ ∃ val, c.marshal e = some val}

variable {R c}

theorem choosesMax_storable (key : GoString) : ChoosesMax newerOf R.rank (Storable R c key) where
  choice := newerOf_choice
  rank_pick := fun ha hb => (R.choosesMax key).rank_pick ⟨ha.1, ha.2.1⟩ ⟨hb.1, hb.2.1⟩

/-! ## Memtables -/

namespace MemTable

variable (R c)

/-- A memtable holds storable entries, each under its key. -/
def Ok (m : MemTable) : Prop := ∀ key, ∀ e ∈ m.get key, e ∈ Storable R c key

variable {R c}

theorem ok_new : MemTable.new.Ok R c := by
  intro key e he
  simp [MemTable.new, MemTable.get] at he

/-- **`Put` resolves against what is there**, and touches no other key. -/
theorem get_put (m : MemTable) (key : GoString) (e : StatEntry) (key' : GoString) :
    (m.put c key e).get key'
      = if key' = key then pickNewer (m.get key) (some e) else m.get key' := by
  rw [MemTable.put, MemTable.get, MemTable.get, MemTable.get]
  cases hl : m.data.lookup key with
  | none =>
    by_cases hk : key' = key
    · subst hk
      simp [pickNewer]
    · simp [hk, AList.lookup_insert_ne hk]
  | some existing =>
    by_cases hk : key' = key
    · subst hk
      simp [pickNewer]
    · simp [hk, AList.lookup_insert_ne hk]

theorem Ok.put {m : MemTable} (h : m.Ok R c) {key : GoString} {e : StatEntry}
    (he : e ∈ Storable R c key) : (m.put c key e).Ok R c := by
  intro key' x hx
  rw [get_put] at hx
  split_ifs at hx with hk
  · subst hk
    rw [pickNewer_eq_pickOption] at hx
    exact (choosesMax_storable key').mem_pickOption (h key') (by simpa using he) x hx
  · exact h key' x hx

/-- Of the two entries for a key the larger rank is kept. -/
theorem Ok.optRank_get_put {m : MemTable} (h : m.Ok R c) {key : GoString} {e : StatEntry}
    (he : e ∈ Storable R c key) :
    optRank R.rank ((m.put c key e).get key)
      = max (optRank R.rank (m.get key)) ↑(R.rank e) := by
  rw [get_put, if_pos rfl, pickNewer_eq_pickOption,
    (choosesMax_storable key).optRank_pickOption (h key) (by simpa using he), optRank_some]

/-- What a flush writes out is what the memtable holds. -/
theorem mem_sortedEntries {m : MemTable} {e : StatEntry} :
    e ∈ m.sortedEntries ↔ ∃ key, m.get key = some e := by
  simp only [sortedEntries, List.mem_filterMap, List.mem_insertionSort, MemTable.get]
  refine ⟨fun ⟨key, _, h⟩ => ⟨key, h⟩, fun ⟨key, h⟩ => ⟨key, ?_, h⟩⟩
  exact AList.mem_keys.mp (AList.lookup_isSome.mp (by simp [h]))

/-- With one entry a key. -/
theorem Ok.nodup_sortedEntries {m : MemTable} (h : m.Ok R c) :
    (m.sortedEntries.map entryKey).Nodup := by
  have hkeys : ∀ ks : List GoString,
      ((ks.filterMap fun k => m.data.lookup k).map entryKey).Sublist ks := by
    intro ks
    induction ks with
    | nil => simp
    | cons k ks ih =>
      cases hk : m.data.lookup k with
      | none => simpa [List.filterMap_cons, hk] using ih.cons k
      | some e =>
        have hkey : entryKey e = k := (h k e hk).2.1
        simpa [List.filterMap_cons, hk, hkey] using ih
  exact (hkeys _).nodup ((List.perm_insertionSort _ _).nodup_iff.mpr m.data.keys_nodup)

end MemTable

/-! ## Tables -/

namespace SSTable

variable (R c)

/-- A table whose records are encoded storable entries under their keys. -/
def Ok (t : SSTable) : Prop := ∀ r ∈ t.data, ∃ e ∈ Storable R c r.1, c.marshal e = some r.2

variable {R c}

theorem index_eq_some {t : SSTable} {key : GoString} {val : Bytes} (h : t.index key = some val) :
    (key, val) ∈ t.data := by
  rw [index, List.lookup_eq_some_iff] at h
  obtain ⟨l, r, hl, -⟩ := h
  exact List.mem_reverse.mp (hl ▸ by simp)

theorem exists_index_of_mem {t : SSTable} {r : GoString × Bytes} (h : r ∈ t.data) :
    ∃ val, t.index r.1 = some val := by
  cases hi : t.index r.1 with
  | some val => exact ⟨val, rfl⟩
  | none =>
    rw [index, List.lookup_eq_none_iff] at hi
    have := hi r (List.mem_reverse.mpr h)
    simp at this

/-- **A lookup returns a storable entry.** -/
theorem Ok.get_mem {t : SSTable} (h : t.Ok R c) {key : GoString} {e : StatEntry}
    (hget : t.get c key = some e) : e ∈ Storable R c key := by
  obtain ⟨val, hval, hdec⟩ := Option.bind_eq_some_iff.mp hget
  obtain ⟨e', he', hmar⟩ := h _ (index_eq_some hval)
  rw [c.unmarshal_marshal hmar, Option.some.injEq] at hdec
  exact hdec ▸ he'

/-- And finds every key the table holds. -/
theorem Ok.exists_get {t : SSTable} (h : t.Ok R c) {r : GoString × Bytes} (hr : r ∈ t.data) :
    ∃ e, t.get c r.1 = some e := by
  obtain ⟨val, hval⟩ := exists_index_of_mem hr
  obtain ⟨e, -, hmar⟩ := h _ (index_eq_some hval)
  exact ⟨e, by rw [get, hval, Option.bind_some, c.unmarshal_marshal hmar]⟩

/-- **A scan returns what lookups find.** -/
theorem Ok.scan_eq {t : SSTable} (h : t.Ok R c) :
    ∃ es, t.scan c (fun _ => true) = some es ∧ ∀ e, e ∈ es ↔ ∃ key, t.get c key = some e := by
  have hmapM : ∀ rs : TableData, (∀ r ∈ rs, r ∈ t.data) →
      rs.mapM (fun r => t.get c r.1) = some (rs.filterMap fun r => t.get c r.1) := by
    intro rs
    induction rs with
    | nil => intro _; rfl
    | cons r rs ih =>
      intro hrs
      obtain ⟨e, he⟩ := h.exists_get (hrs r (by simp))
      rw [List.mapM_cons, ih fun r hr => hrs r (by simp [hr]), he]
      simp [he]
  refine ⟨t.data.filterMap fun r => t.get c r.1, ?_, fun e => ?_⟩
  · rw [scan, hmapM t.data fun r hr => hr]
    simp
  · rw [List.mem_filterMap]
    refine ⟨fun ⟨r, _, hr⟩ => ⟨r.1, hr⟩, fun ⟨key, hkey⟩ => ?_⟩
    obtain ⟨val, hval, -⟩ := Option.bind_eq_some_iff.mp hkey
    exact ⟨(key, val), index_eq_some hval, hkey⟩

/-- `t'` has every key of `t`, at no lower rank. -/
def Covers (R : Ranking ρ) (c : Codec) (t' t : SSTable) : Prop :=
  ∀ key, optRank R.rank (t.get c key) ≤ optRank R.rank (t'.get c key)

end SSTable

/-- The records of entries that marshal, in the order of their keys. -/
theorem tableRecords_spec {es : List StatEntry} (hes : ∀ e ∈ es, ∃ val, c.marshal e = some val) :
    ∃ data, tableRecords c es = some data ∧
      data.map Prod.fst = (es.insertionSort fun a b => entryKey a ≤ entryKey b).map entryKey ∧
      ∀ r, r ∈ data ↔ ∃ e ∈ es, entryKey e = r.1 ∧ c.marshal e = some r.2 := by
  have hmapM : ∀ l : List StatEntry, (∀ e ∈ l, ∃ val, c.marshal e = some val) →
      ∃ data, l.mapM (fun e => (c.marshal e).map fun val => (entryKey e, val)) = some data ∧
        data.map Prod.fst = l.map entryKey ∧
        ∀ r, r ∈ data ↔ ∃ e ∈ l, entryKey e = r.1 ∧ c.marshal e = some r.2 := by
    intro l
    induction l with
    | nil => exact fun _ => ⟨[], rfl, rfl, by simp⟩
    | cons e l ih =>
      intro hl
      obtain ⟨data, hdata, hkeys, hmem⟩ := ih fun x hx => hl x (by simp [hx])
      obtain ⟨val, hval⟩ := hl e (by simp)
      refine ⟨(entryKey e, val) :: data, ?_, by simp [hkeys], fun r => ?_⟩
      · rw [List.mapM_cons, hdata, hval]
        rfl
      · simp only [List.mem_cons, hmem, exists_eq_or_imp, hval, Option.some.injEq]
        refine or_congr_left ⟨?_, fun ⟨hk, hv⟩ => Prod.ext hk.symm hv.symm⟩
        rintro rfl
        exact ⟨rfl, rfl⟩
  have hsort : ∀ e, e ∈ es.insertionSort (fun a b => entryKey a ≤ entryKey b) ↔ e ∈ es :=
    fun e => List.mem_insertionSort _
  obtain ⟨data, hdata, hkeys, hmem⟩ := hmapM (es.insertionSort fun a b => entryKey a ≤ entryKey b)
    fun e he => hes e ((hsort e).mp he)
  simp only [hsort] at hmem
  exact ⟨data, hdata, hkeys, hmem⟩

/-- **A lookup in a written table** finds the entry of its key, where no
two entries share one. -/
theorem get_tableRecords {es : List StatEntry} (hes : ∀ e ∈ es, ∃ val, c.marshal e = some val)
    (hnodup : (es.map entryKey).Nodup) {data : TableData}
    (hmem : ∀ r, r ∈ data ↔ ∃ e ∈ es, entryKey e = r.1 ∧ c.marshal e = some r.2)
    (path : SSTPath) (key : GoString) (e : StatEntry) :
    (SSTable.mk path data).get c key = some e ↔ e ∈ es ∧ entryKey e = key := by
  have hfound : ∀ key e, (SSTable.mk path data).get c key = some e → e ∈ es ∧ entryKey e = key := by
    intro key e hget
    obtain ⟨val, hval, hdec⟩ := Option.bind_eq_some_iff.mp hget
    obtain ⟨e', he', hkey, hmar⟩ := (hmem _).mp (SSTable.index_eq_some hval)
    rw [c.unmarshal_marshal hmar, Option.some.injEq] at hdec
    exact hdec ▸ ⟨he', hkey⟩
  refine ⟨hfound key e, ?_⟩
  rintro ⟨he, rfl⟩
  obtain ⟨val, hval⟩ := hes e he
  have hr : (entryKey e, val) ∈ data := (hmem _).mpr ⟨e, he, rfl, hval⟩
  obtain ⟨val', hval'⟩ := SSTable.exists_index_of_mem (t := ⟨path, data⟩) hr
  obtain ⟨e', he', hkey', hmar'⟩ := (hmem _).mp (SSTable.index_eq_some hval')
  have hsame : e' = e := List.inj_on_of_nodup_map hnodup he' he hkey'
  rw [SSTable.get, hval', Option.bind_some, c.unmarshal_marshal hmar', hsame]

/-- **Writing a table**: entries of distinct keys, each storable, make a
table in which a lookup finds just them. -/
theorem tableRecords_eq {es : List StatEntry} (hes : ∀ e ∈ es, e ∈ Storable R c (entryKey e))
    (hnodup : (es.map entryKey).Nodup) :
    ∃ data, tableRecords c es = some data ∧ ∀ path, (SSTable.mk path data).Ok R c ∧
      ∀ key e, (SSTable.mk path data).get c key = some e ↔ e ∈ es ∧ entryKey e = key := by
  have hmarshal : ∀ e ∈ es, ∃ val, c.marshal e = some val := fun e he => (hes e he).2.2
  obtain ⟨data, hdata, -, hmem⟩ := tableRecords_spec hmarshal
  refine ⟨data, hdata, fun path => ⟨?_, get_tableRecords hmarshal hnodup hmem path⟩⟩
  intro r hr
  obtain ⟨e, he, hkey, hval⟩ := (hmem r).mp hr
  exact ⟨e, hkey ▸ hes e he, hval⟩

/-! ## Several tables -/

/-- What the tables hold for a key. -/
def hits (c : Codec) (key : GoString) (ts : List SSTable) : List StatEntry :=
  ts.filterMap fun t => t.get c key

@[simp] theorem hits_append (key : GoString) (ts ts' : List SSTable) :
    hits c key (ts ++ ts') = hits c key ts ++ hits c key ts' := List.filterMap_append

theorem mem_hits {key : GoString} {ts : List SSTable} {e : StatEntry} :
    e ∈ hits c key ts ↔ ∃ t ∈ ts, t.get c key = some e := List.mem_filterMap

theorem hits_storable {ts : List SSTable} (h : ∀ t ∈ ts, t.Ok R c) {key : GoString} :
    ∀ e ∈ hits c key ts, e ∈ Storable R c key := by
  intro e he
  obtain ⟨t, ht, hget⟩ := mem_hits.mp he
  exact (h t ht).get_mem hget

theorem optRank_get_le_hits {ts : List SSTable} {t : SSTable} (ht : t ∈ ts) (key : GoString) :
    optRank R.rank (t.get c key) ≤ topRank R.rank (hits c key ts) := by
  cases hget : t.get c key with
  | none => simp
  | some e => exact le_topRank (mem_hits.mpr ⟨t, ht, hget⟩)

theorem topRank_hits_le {ts : List SSTable} {key : GoString} {x : WithBot ρ} :
    topRank R.rank (hits c key ts) ≤ x ↔ ∀ t ∈ ts, optRank R.rank (t.get c key) ≤ x := by
  rw [topRank_le_iff]
  constructor
  · intro h t ht
    cases hget : t.get c key with
    | none => simp
    | some e => exact h e (mem_hits.mpr ⟨t, ht, hget⟩)
  · intro h e he
    obtain ⟨t, ht, hget⟩ := mem_hits.mp he
    simpa [hget] using h t ht

theorem topRank_hits_singleton (t : SSTable) (key : GoString) :
    topRank R.rank (hits c key [t]) = optRank R.rank (t.get c key) := by
  cases hget : t.get c key <;> simp [hits, hget]

/-- The map of a merge holds, for each key, the fold over the entries of
that key. -/
theorem lookup_foldl_mergeEntry (es : List StatEntry) (m : AList fun _ : GoString => StatEntry)
    (key : GoString) :
    (es.foldl mergeEntry m).lookup key
      = (es.filter fun e => entryKey e = key).foldl (fun o e => pickNewer o (some e))
          (m.lookup key) := by
  induction es generalizing m with
  | nil => rfl
  | cons e es ih =>
    rw [List.foldl_cons, ih]
    have hstep : (mergeEntry m e).lookup key
        = if entryKey e = key then pickNewer (m.lookup key) (some e) else m.lookup key := by
      obtain ⟨w, hw⟩ : ∃ w, pickNewer (m.lookup (entryKey e)) (some e) = some w := by
        cases m.lookup (entryKey e) <;> exact ⟨_, rfl⟩
      rw [mergeEntry, hw]
      by_cases hk : entryKey e = key
      · subst hk
        simp [hw]
      · simp [hk, AList.lookup_insert_ne (Ne.symm hk)]
    rw [hstep]
    by_cases hk : entryKey e = key <;> simp [hk]

/-- Scanning tables one after the other returns what lookups in them find. -/
theorem mapM_scan {ts : List SSTable} (h : ∀ t ∈ ts, t.Ok R c) :
    ∃ ess, ts.mapM (fun t : SSTable => t.scan c fun _ => true) = some ess ∧
      ∀ e, e ∈ ess.flatten ↔ ∃ t ∈ ts, ∃ key, t.get c key = some e := by
  induction ts with
  | nil => exact ⟨[], rfl, by simp⟩
  | cons t ts ih =>
    obtain ⟨ess, hess, hmem⟩ := ih fun x hx => h x (by simp [hx])
    obtain ⟨es, hes, hmem'⟩ := (h t (by simp)).scan_eq
    refine ⟨es :: ess, by rw [List.mapM_cons, hes, hess]; rfl, fun e => ?_⟩
    simp [hmem, hmem']

/-- The map of a merge, looked up: the fold over what was scanned for the
key is a storable entry of the largest rank. -/
theorem lookup_merged {es : List StatEntry} (hes : ∀ e ∈ es, e ∈ Storable R c (entryKey e))
    (key : GoString) :
    (∀ e ∈ (es.foldl mergeEntry ∅).lookup key, e ∈ Storable R c key) ∧
      optRank R.rank ((es.foldl mergeEntry ∅).lookup key)
        = topRank R.rank (es.filter fun e => entryKey e = key) := by
  have hstored : ∀ e ∈ es.filter (fun e => entryKey e = key), e ∈ Storable R c key := by
    intro e he
    obtain ⟨hmem, hkey⟩ := List.mem_filter.mp he
    have hkey : entryKey e = key := by simpa using hkey
    exact hkey ▸ hes e hmem
  rw [lookup_foldl_mergeEntry, pickNewer_eq_pickOption, AList.lookup_empty]
  refine ⟨(choosesMax_storable key).mem_foldl hstored (by simp), ?_⟩
  rw [(choosesMax_storable key).optRank_foldl hstored (by simp), optRank_none, bot_sup_eq]

/-- **A merge keeps the largest rank of each key.** It holds one entry a
key, so a table written from it finds, for a key, the one entry `o` that
the merge has for it. -/
theorem mergeTables_eq {sources : List SSTable} (h : ∀ t ∈ sources, t.Ok R c) :
    ∃ es, mergeTables c sources = some es ∧ (∀ e ∈ es, e ∈ Storable R c (entryKey e)) ∧
      (es.map entryKey).Nodup ∧ ∀ key o, (∀ e, o = some e ↔ e ∈ es ∧ entryKey e = key) →
        optRank R.rank o = topRank R.rank (hits c key sources) := by
  obtain ⟨ess, hess, hmem⟩ := mapM_scan h
  have hscanned : ∀ e ∈ ess.flatten, e ∈ Storable R c (entryKey e) := by
    intro e he
    obtain ⟨t, ht, key, hget⟩ := (hmem e).mp he
    have hst := (h t ht).get_mem hget
    exact ⟨hst.1, rfl, hst.2.2⟩
  have hmerged := lookup_merged hscanned
  set merged := ess.flatten.foldl mergeEntry ∅
  -- an entry is listed under its own key, so the list is the map
  have hentries : ∀ e, e ∈ merged.entries.map (·.2) ↔ merged.lookup (entryKey e) = some e := by
    intro e
    rw [List.mem_map]
    constructor
    · rintro ⟨p, hp, rfl⟩
      have hl : merged.lookup p.1 = some p.2 := AList.mem_lookup_iff.mpr hp
      rwa [((hmerged p.1).1 p.2 hl).2.1]
    · exact fun hl => ⟨⟨entryKey e, e⟩, AList.mem_lookup_iff.mp hl, rfl⟩
  refine ⟨merged.entries.map (·.2), by rw [mergeTables, hess]; rfl,
    fun e he => (hmerged _).1 e ((hentries e).mp he), ?_, fun key o ho => ?_⟩
  · have hkeys : (merged.entries.map (·.2)).map entryKey = merged.keys := by
      rw [List.map_map, AList.keys, List.keys]
      refine List.map_congr_left fun p hp => ?_
      exact ((hmerged p.1).1 p.2 (AList.mem_lookup_iff.mpr hp)).2.1
    rw [hkeys]
    exact merged.keys_nodup
  · have heq : o = merged.lookup key := by
      refine Option.ext fun e => ?_
      rw [ho, hentries]
      refine ⟨fun ⟨hl, hk⟩ => hk ▸ hl, fun hl => ?_⟩
      have hk := ((hmerged key).1 e hl).2.1
      exact ⟨by rw [hk]; exact hl, hk⟩
    rw [heq, (hmerged key).2]
    -- the entries merged for a key are the hits of the sources
    refine topRank_congr fun e => ?_
    rw [List.mem_filter, hmem, mem_hits]
    constructor
    · rintro ⟨⟨t, ht, key', hget⟩, hkey⟩
      have hkey' := ((h t ht).get_mem hget).2.1
      obtain rfl : key' = key := hkey'.symm.trans (by simpa using hkey)
      exact ⟨t, ht, hget⟩
    · rintro ⟨t, ht, hget⟩
      exact ⟨⟨t, ht, key, hget⟩, by simpa using ((h t ht).get_mem hget).2.1⟩

end Metastore

end TftAnalytics

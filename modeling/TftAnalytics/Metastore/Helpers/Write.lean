import TftAnalytics.Metastore.Helpers.Flush
/-!
# Metastore — writes and crashes, rank by rank

Helper layer. A write raises the rank of its key to that of its entry and
leaves the others; the log goes on standing for the memtable as long as
the record was appended to complete records. A machine that stops leaves a
recoverable directory, and a tree opened on one holds just its ranks.
-/

namespace TftAnalytics

namespace Metastore

variable {ρ : Type*} [LinearOrder ρ] {R : Ranking ρ} {env : Env} {s : Store}

/-- The ranks after an entry is added. -/
def raise (R : Ranking ρ) (top : GoString → WithBot ρ) (e : StatEntry) : GoString → WithBot ρ :=
  fun key => if key = entryKey e then max (top key) ↑(R.rank e) else top key

theorem le_raise (top : GoString → WithBot ρ) (e : StatEntry) (key : GoString) :
    top key ≤ raise R top e key := by
  unfold raise
  split_ifs
  · exact le_max_left _ _
  · exact le_rfl

theorem rank_le_raise (top : GoString → WithBot ρ) (e : StatEntry) :
    ↑(R.rank e) ≤ raise R top e (entryKey e) := by
  rw [raise, if_pos rfl]
  exact le_max_right _ _

/-- A marshalled entry fits the length fields of a log record. -/
theorem length_entryKey_lt {c : Codec} {e : StatEntry} {val : Bytes} (h : c.marshal e = some val) :
    (entryKey e).length < 2 ^ 32 ∧ val.length < 2 ^ 32 := by
  have hlen := c.length_lt h
  have hstrings := c.strings_le h
  simp only [entryKey, List.length_append, List.length_singleton]
  constructor <;> omega

/-! ## Writes -/

theorem applyEntry_top (h : Inv R env s) {e : StatEntry}
    (he : e ∈ Storable R env.codec (entryKey e)) (val : Bytes) :
    (s.applyEntry env e val).tree.top R env.codec = raise R (s.tree.top R env.codec) e := by
  funext key
  have hmem : (s.applyEntry env e val).tree.memtable
      = s.tree.memtable.put env.codec (entryKey e) e := rfl
  have hlevel : ∀ i, (s.applyEntry env e val).tree.level i = s.tree.level i := fun _ => rfl
  rw [LSMTree.top_eq, hmem, hlevel, hlevel, raise]
  by_cases hk : key = entryKey e
  · subst hk
    rw [if_pos rfl, h.mem.optRank_get_put he, LSMTree.top_eq, max_right_comm]
  · rw [if_neg hk, MemTable.get_put, if_neg hk, LSMTree.top_eq]

/-- **A write keeps the invariant**, up to the flush it may end in. -/
theorem Inv.applyEntry (h : Inv R env s) {e : StatEntry}
    (he : e ∈ Storable R env.codec (entryKey e)) (val : Bytes) :
    Inv R env (s.applyEntry env e val) where
  files := by
    have hfiles : Files R env (s.applyEntry env e val).disk (s.tree.top R env.codec) :=
      h.files.of_eq rfl le_rfl
    rw [applyEntry_top h he]
    exact hfiles.mono (le_raise _ e)
  immutable := h.immutable
  levels := h.levels
  mem := h.mem.put he
  opened := h.opened
  sorted := h.sorted
  below := h.below
  cache_wf := h.cache_wf.remove _
  cache := by
    intro el hel
    obtain ⟨hold, hkey⟩ := h.cache_wf.mem_remove hel
    rw [applyEntry_top h he, raise, if_neg hkey]
    exact h.cache el hold

/-- The data of a log after a write. -/
theorem logged_write (hwhole : Whole s.disk.wal) {e : StatEntry} {val : Bytes}
    (hval : env.codec.marshal e = some val) (n : ℕ) :
    logged (s.disk.wal ++ (writeRecords s e val).1 ++ (writeRecords s e val).2.take n)
      = logged s.disk.wal ++ [(entryKey e, val)] := by
  obtain ⟨hkey, hlen⟩ := length_entryKey_lt hval
  obtain ⟨hdata, hwhole'⟩ := logged_appendRecord hwhole hkey hlen
  rw [writeRecords, logged_take_commit hwhole', hdata]

/-- The data of a log, and an entry just written, against the raised
ranks. -/
theorem entries_raise {d : Disk} {top : GoString → WithBot ρ} (hl : Log R env.codec d top)
    {e : StatEntry} (he : e ∈ Storable R env.codec (entryKey e)) {val : Bytes}
    (hval : env.codec.marshal e = some val) (r : GoString × Bytes)
    (hr : r ∈ logged d.wal ∨ r = (entryKey e, val)) :
    ∀ x, env.codec.unmarshal r.2 = some x →
      x ∈ Storable R env.codec r.1 ∧ ↑(R.rank x) ≤ raise R top e r.1 := by
  intro x hx
  rcases hr with hr | rfl
  · obtain ⟨hst, hle⟩ := hl.entries r hr x hx
    exact ⟨hst, hle.trans (le_raise _ e _)⟩
  · rw [env.codec.unmarshal_marshal hval, Option.some.injEq] at hx
    subst hx
    exact ⟨he, rank_le_raise _ e⟩

/-- **The log stands for the memtable after a write**, if it held complete
records before. -/
theorem Logged.applyEntry (hl : Logged R env s) (h : Inv R env s) (hwhole : Whole s.disk.wal)
    {e : StatEntry} (he : e ∈ Storable R env.codec (entryKey e)) {val : Bytes}
    (hval : env.codec.marshal e = some val) : Logged R env (s.applyEntry env e val) := by
  obtain ⟨hkey, hlen⟩ := length_entryKey_lt hval
  have hwal : (s.applyEntry env e val).disk.wal
      = s.disk.wal ++ (writeRecords s e val).1 ++ (writeRecords s e val).2 := rfl
  have hsynced : (s.applyEntry env e val).disk.synced
      = (s.disk.wal ++ (writeRecords s e val).1).length := rfl
  have hdata : logged (s.applyEntry env e val).disk.wal
      = logged s.disk.wal ++ [(entryKey e, val)] := by
    rw [hwal, ← List.take_length (l := (writeRecords s e val).2)]
    exact logged_write hwhole hval _
  -- the sync stands between the data record and its marker, so a crash may lose the marker
  refine ⟨⟨?_, Or.inr ⟨?_, s.tree.walSeq + 1, ?_⟩, fun r hr => ?_⟩, fun key x hx => ?_⟩
  · rw [hwal, hsynced]
    exact (List.prefix_append _ _).length_le
  · rw [hwal, hsynced, List.take_left]
    exact (logged_appendRecord hwhole hkey hlen).2
  · rw [hwal, hsynced, List.drop_left]
    rfl
  · rw [applyEntry_top h he]
    rw [hdata, List.mem_append, List.mem_singleton] at hr
    exact entries_raise hl.log he hval r hr
  · rw [hdata]
    have hput : (s.applyEntry env e val).tree.memtable.get key
        = (s.tree.memtable.put env.codec (entryKey e) e).get key := rfl
    rw [hput, MemTable.get_put] at hx
    -- of a key the memtable has the entry it had, or the one just written
    have hold : s.tree.memtable.get key = some x →
        ∃ r ∈ logged s.disk.wal ++ [(entryKey e, val)],
          r.1 = key ∧ env.codec.unmarshal r.2 = some x := by
      intro hget
      obtain ⟨r, hr, hkr, hdec⟩ := hl.mem key x hget
      exact ⟨r, List.mem_append_left _ hr, hkr, hdec⟩
    split_ifs at hx with hk
    · subst hk
      have hnew : x = e → ∃ r ∈ logged s.disk.wal ++ [(entryKey e, val)],
          r.1 = entryKey e ∧ env.codec.unmarshal r.2 = some x := by
        rintro rfl
        exact ⟨_, List.mem_append_right _ (List.mem_singleton_self _), rfl,
          env.codec.unmarshal_marshal hval⟩
      cases hget : s.tree.memtable.get (entryKey e) with
      | none =>
        rw [hget] at hx
        exact hnew (Option.some.inj hx).symm
      | some y =>
        rw [hget] at hx
        have hx : newerOf y e = x := Option.some.inj hx
        rcases newerOf_choice y e with hc | hc
        · exact hold (by rw [hget, ← hx, hc])
        · exact hnew (by rw [← hx, hc])
    · exact hold hx

/-! ## The machine stops -/

/-- What is not synced holds no data. -/
theorem Log.logged_take {c : Codec} {d : Disk} {top : GoString → WithBot ρ} (h : Log R c d top)
    {n : ℕ} (hn : d.synced ≤ n) : logged (d.wal.take n) = logged d.wal := by
  rcases h.tail with htail | ⟨hwhole, seq, hseq⟩
  · rw [List.take_of_length_le (by omega)]
  · have hsplit : d.wal = d.wal.take d.synced ++ commitRecord seq := by
      rw [← hseq, List.take_append_drop]
    have htake : d.wal.take n = d.wal.take d.synced
        ++ (commitRecord seq).take (n - d.synced) := by
      conv_lhs => rw [hsplit]
      rw [List.take_append, List.length_take, min_eq_left h.synced_le,
        List.take_of_length_le (by rw [List.length_take]; omega)]
    rw [htake, logged_take_commit hwhole]
    conv_rhs => rw [hsplit]
    rw [(logged_commitRecord hwhole seq).1]

/-- A directory whose log holds the same data, all of it synced. -/
theorem Recoverable.setWal {d : Disk} {top : GoString → WithBot ρ} (h : Recoverable R env d top)
    {wal : Bytes} (hwal : logged wal = logged d.wal) :
    Recoverable R env { d with wal := wal, synced := wal.length } top where
  files := h.files.of_eq rfl le_rfl
  log :=
    { synced_le := le_rfl
      tail := Or.inl rfl
      entries := by simp only [hwal]; exact h.log.entries }
  complete := by simp only [hwal]; exact h.complete

/-- **After a stop, what was recoverable still is.** -/
theorem Recoverable.survive {d : Disk} {top : GoString → WithBot ρ} (h : Recoverable R env d top)
    (cut : ℕ) : Recoverable R env (d.survive cut) top :=
  h.setWal (h.log.logged_take (le_max_right _ _))

/-- A log cut inside records that are being appended to it. -/
theorem take_append_cases {a b c : Bytes} (n : ℕ) :
    n ≤ a.length ∧ (a ++ b ++ c).take n = a.take n ∨
      a.length < n ∧ n - a.length < b.length ∧ (a ++ b ++ c).take n = a ++ b.take (n - a.length) ∨
      a.length < n ∧ (a ++ b ++ c).take n = a ++ b ++ c.take (n - (a ++ b).length) := by
  rcases Nat.lt_or_ge a.length n with ha | ha
  · rcases Nat.lt_or_ge (n - a.length) b.length with hb | hb
    · refine Or.inr (Or.inl ⟨ha, hb, ?_⟩)
      rw [List.append_assoc, List.take_append, List.take_of_length_le ha.le,
        List.take_append_of_le_length hb.le]
    · refine Or.inr (Or.inr ⟨ha, ?_⟩)
      rw [List.take_append, List.take_of_length_le (by rw [List.length_append]; omega)]
  · exact Or.inl ⟨ha, by rw [List.append_assoc, List.take_append_of_le_length ha]⟩

/-- **A stop in the middle of a write** loses the entry or keeps it, as
long as its record was being appended to complete records. -/
theorem Inv.tornWrite (h : Inv R env s) (hl : Logged R env s) {e : StatEntry}
    (he : e ∈ Storable R env.codec (entryKey e)) {val : Bytes}
    (hval : env.codec.marshal e = some val) {cut : ℕ}
    (hwhole : s.disk.wal.length < cut → Whole s.disk.wal) :
    Recoverable R env ((s.tornWrite e val).survive cut) (s.tree.top R env.codec) ∨
      Recoverable R env ((s.tornWrite e val).survive cut) (raise R (s.tree.top R env.codec) e) := by
  have hrec := h.recoverable hl
  have hsynced := hl.log.synced_le
  set n := max cut s.disk.synced with hn
  have hlt : s.disk.wal.length < n → Whole s.disk.wal := by
    intro hlt
    exact hwhole ((lt_max_iff.mp hlt).resolve_right (not_lt.mpr hsynced))
  have htorn : (s.tornWrite e val).survive cut = { s.disk with
      wal := (s.disk.wal ++ (writeRecords s e val).1 ++ (writeRecords s e val).2).take n
      synced := ((s.disk.wal ++ (writeRecords s e val).1
        ++ (writeRecords s e val).2).take n).length } := rfl
  rw [htorn]
  obtain ⟨hkey, hlen⟩ := length_entryKey_lt hval
  -- the cut is in the old log, in the data record, or behind it
  rcases take_append_cases (a := s.disk.wal) (b := (writeRecords s e val).1)
    (c := (writeRecords s e val).2) n with ⟨-, heq⟩ | ⟨hlong, hshort, heq⟩ | ⟨hlong, heq⟩
  · refine Or.inl (hrec.setWal ?_)
    rw [heq]
    exact hl.log.logged_take (le_max_right _ _)
  · refine Or.inl (hrec.setWal ?_)
    rw [heq]
    exact logged_torn (hlt hlong) (chunk_walRecord hkey hlen) hshort
  · right
    -- the data record is whole: replay finds it, with its marker or without
    have hdata := logged_write (s := s) (hlt hlong) hval
      (n - (s.disk.wal ++ (writeRecords s e val).1).length)
    rw [← heq] at hdata
    have hfiles : Files R env ((s.tornWrite e val).survive cut) (s.tree.top R env.codec) :=
      hrec.files.of_eq rfl le_rfl
    exact
      { files := hfiles.mono (le_raise _ e)
        log :=
          { synced_le := le_rfl
            tail := Or.inl rfl
            entries := by
              intro r hr
              rw [hdata, List.mem_append, List.mem_singleton] at hr
              exact entries_raise hl.log he hval r hr }
        complete := by
          intro key x htables hlog
          simp only [hdata, List.mem_append, List.mem_singleton] at hlog
          have htop := hrec.complete key x htables fun r hr => hlog r (Or.inl hr)
          unfold raise
          split_ifs with hk
          · exact max_le htop
              (hlog _ (Or.inr rfl) hk.symm e (env.codec.unmarshal_marshal hval))
          · exact htop }

/-- **Any directory whose log reads back** is recoverable with the ranks
that are in it. -/
theorem Files.recoverable {d : Disk} {top : GoString → WithBot ρ} (h : Files R env d top)
    (hsynced : d.synced = d.wal.length)
    (hread : ∀ r ∈ logged d.wal, ∀ e, env.codec.unmarshal r.2 = some e →
      e ∈ Storable R env.codec r.1) : ∃ top, Recoverable R env d top := by
  -- the entries of a key in the log
  set found : GoString → List StatEntry := fun key => (logged d.wal).filterMap fun r =>
    if r.1 = key then env.codec.unmarshal r.2 else none with hfound
  have hmem : ∀ key e, e ∈ found key ↔
      ∃ r ∈ logged d.wal, r.1 = key ∧ env.codec.unmarshal r.2 = some e := by
    intro key e
    rw [hfound, List.mem_filterMap]
    refine exists_congr fun r => and_congr_right fun _ => ?_
    split_ifs with hk
    · rw [and_iff_right hk]
    · exact iff_of_false (by simp) fun hr => hk hr.1
  refine ⟨fun key => max (topRank R.rank (hits env.codec key d.tables))
    (topRank R.rank (found key)), ?_⟩
  exact
    { files := { h with le_top := fun t ht key =>
        (optRank_get_le_hits ht key).trans (le_max_left _ _) }
      log :=
        { synced_le := hsynced.le
          tail := Or.inl hsynced
          entries := fun r hr e he => ⟨hread r hr e he,
            (le_topRank ((hmem r.1 e).mpr ⟨r, hr, rfl, he⟩)).trans (le_max_right _ _)⟩ }
      complete := by
        intro key x htables hlog
        refine max_le (topRank_hits_le.mpr htables) (topRank_le_iff.mpr fun e he => ?_)
        obtain ⟨r, hr, hk, hdec⟩ := (hmem key e).mp he
        exact hlog r hr hk e hdec }

/-! ## Opening -/

/-- The levels `loadLevels` has built so far, from files of levels 0 and 1. -/
theorem foldl_loadTable (fs : List (SSTPath × Option TableData)) (hfs : ∀ f ∈ fs, f.1.level ≤ 1)
    (levels : List (List SSTable)) (hlen : 1 ≤ levels.length ∧ levels.length ≤ 2) :
    (1 ≤ (fs.foldl loadTable levels).length ∧ (fs.foldl loadTable levels).length ≤ 2) ∧
      ∀ i, (fs.foldl loadTable levels).getD i []
        = levels.getD i [] ++ ((fs.filterMap fun f => f.2.map fun data =>
            (⟨f.1, data⟩ : SSTable)).filter fun t => t.path.level = i) := by
  induction fs generalizing levels with
  | nil => exact ⟨hlen, fun i => by simp⟩
  | cons f fs ih =>
    obtain ⟨path, content⟩ := f
    cases content with
    | none => exact ih (fun g hg => hfs g (by simp [hg])) levels hlen
    | some data =>
      have hlevel : path.level ≤ 1 := hfs (path, some data) (by simp)
      have hlt : path.level < (padLevels levels path.level).length := by
        simp only [padLevels, List.length_append, List.length_replicate]
        omega
      have hlen' : 1 ≤ (loadTable levels (path, some data)).length ∧
          (loadTable levels (path, some data)).length ≤ 2 := by
        simp only [loadTable, padLevels, List.length_set, List.length_append,
          List.length_replicate]
        omega
      -- one level gains the table, the others stay
      have hget : ∀ i, (loadTable levels (path, some data)).getD i []
          = levels.getD i [] ++ if path.level = i then [⟨path, data⟩] else [] := by
        intro i
        simp only [loadTable]
        rw [List.getD_eq_getElem?_getD, List.getElem?_set]
        split_ifs with hi
        · subst hi
          simp only [Option.getD_some]
          rw [getD_padLevels]
        · rw [← List.getD_eq_getElem?_getD, getD_padLevels, List.append_nil]
      obtain ⟨hbound, hrest⟩ := ih (fun g hg => hfs g (by simp [hg])) _ hlen'
      refine ⟨hbound, fun i => ?_⟩
      rw [List.foldl_cons, hrest, hget]
      by_cases hi : path.level = i <;> simp [hi]

instance : IsTrans (SSTPath × Option TableData) fun f g => f.1.le g.1 where
  trans := by
    intro a b c hab hbc
    simp only [SSTPath.le, UInt64.le_iff_toNat_le] at *
    omega

instance : Std.Total fun f g : SSTPath × Option TableData => f.1.le g.1 where
  total := by
    intro a b
    simp only [SSTPath.le, UInt64.le_iff_toNat_le]
    omega

/-- The files of a directory in the order they are loaded: ascending by
name, and no two of one stamp. -/
theorem Files.pairwise_sorted {d : Disk} {top : GoString → WithBot ρ} (h : Files R env d top) :
    (d.files.insertionSort fun f g => f.1.le g.1).Pairwise
      fun f g => f.1.le g.1 ∧ f.1.nano ≠ g.1.nano := by
  refine (List.pairwise_insertionSort _ _).and ?_
  have hnodup : ((d.files.insertionSort fun f g => f.1.le g.1).map fun f => f.1.nano).Nodup :=
    ((List.perm_insertionSort _ _).map _).nodup_iff.mpr h.distinct
  exact List.pairwise_map.mp hnodup

/-- **The levels of an opened tree**: the complete tables of each level,
ascending by stamp. -/
theorem Files.loadLevels {d : Disk} {top : GoString → WithBot ρ} (h : Files R env d top) :
    (1 ≤ (loadLevels d).length ∧ (loadLevels d).length ≤ 2) ∧
      (∀ i t, t ∈ (loadLevels d).getD i [] ↔ t ∈ d.tables ∧ t.path.level = i) ∧
      ∀ i, ((loadLevels d).getD i []).Pairwise fun t t' => t.path.nano < t'.path.nano := by
  have hperm := List.perm_insertionSort (fun f g : SSTPath × Option TableData => f.1.le g.1) d.files
  obtain ⟨hlen, hget⟩ := foldl_loadTable
    (d.files.insertionSort fun f g => f.1.le g.1)
    (fun f hf => h.level_le f (hperm.mem_iff.mp hf)) [[]] (by simp)
  have hnil : ∀ i, ([[]] : List (List SSTable)).getD i [] = [] := by
    intro i
    cases i <;> rfl
  simp only [hnil, List.nil_append] at hget
  refine ⟨hlen, fun i t => ?_, fun i => ?_⟩
  · rw [Metastore.loadLevels, hget, List.mem_filter, decide_eq_true_iff, Disk.tables,
      (hperm.filterMap _).mem_iff]
  · rw [Metastore.loadLevels, hget]
    have htables : ((d.files.insertionSort fun f g => f.1.le g.1).filterMap fun f =>
        f.2.map fun data => (⟨f.1, data⟩ : SSTable)).Pairwise
        fun t t' => t.path.le t'.path ∧ t.path.nano ≠ t'.path.nano := by
      refine h.pairwise_sorted.filterMap _ fun f g hfg t ht t' ht' => ?_
      obtain ⟨_, -, rfl⟩ := Option.map_eq_some_iff.mp ht
      obtain ⟨_, -, rfl⟩ := Option.map_eq_some_iff.mp ht'
      exact hfg
    refine (htables.sublist List.filter_sublist).imp_of_mem fun {t t'} ht ht' hle => ?_
    have hl : t.path.level = i := by simpa using (List.mem_filter.mp ht).2
    have hl' : t'.path.level = i := by simpa using (List.mem_filter.mp ht').2
    obtain ⟨hle, hne⟩ := hle
    simp only [SSTPath.le] at hle
    omega

/-- **Replaying data records** into a memtable: it holds one of the records
of each key, of no smaller rank than any of them. -/
theorem replayWAL_eq (c : Codec) (rs : List WALEntry)
    (hrs : ∀ r ∈ rs, ∀ e, c.unmarshal r.value = some e → e ∈ Storable R c r.key) :
    (replayWAL c rs).Ok R c ∧
      (∀ key, ∀ e ∈ (replayWAL c rs).get key,
        ∃ r ∈ rs, r.key = key ∧ c.unmarshal r.value = some e) ∧
      ∀ r ∈ rs, ∀ e, c.unmarshal r.value = some e →
        ↑(R.rank e) ≤ optRank R.rank ((replayWAL c rs).get r.key) := by
  induction rs using List.reverseRecOn with
  | nil =>
    refine ⟨MemTable.ok_new, fun key e he => ?_, by simp⟩
    cases he
  | append_singleton rs r ih =>
    obtain ⟨hok, hfrom, hle⟩ := ih fun r' hr' => hrs r' (by simp [hr'])
    have hold : ∀ k x, (replayWAL c rs).get k = some x →
        ∃ r' ∈ rs ++ [r], r'.key = k ∧ c.unmarshal r'.value = some x := by
      intro k x hk
      obtain ⟨r', hr', hkey, hval⟩ := hfrom k x hk
      exact ⟨r', List.mem_append_left _ hr', hkey, hval⟩
    cases hdec : c.unmarshal r.value with
    | none =>
      -- what cannot be decoded is skipped
      have hskip : replayWAL c (rs ++ [r]) = replayWAL c rs := by
        simp only [replayWAL, List.foldl_append, List.foldl_cons, List.foldl_nil, hdec]
      rw [hskip]
      refine ⟨hok, hold, fun r' hr' x hx => ?_⟩
      rcases List.mem_append.mp hr' with hr' | hr'
      · exact hle r' hr' x hx
      · rw [List.mem_singleton.mp hr', hdec] at hx
        cases hx
    | some e =>
    have he := hrs r (by simp) e hdec
    -- the last record is put on what the others left
    have hput : replayWAL c (rs ++ [r]) = (replayWAL c rs).put c r.key e := by
      simp only [replayWAL, List.foldl_append, List.foldl_cons, List.foldl_nil, hdec]
    have hrank := hok.optRank_get_put he
    rw [hput]
    refine ⟨hok.put he, fun key x hx => ?_, fun r' hr' x hx => ?_⟩
    · rw [MemTable.get_put] at hx
      split_ifs at hx with hk
      · subst hk
        cases hget : (replayWAL c rs).get r.key with
        | none =>
          rw [hget] at hx
          obtain rfl := Option.some.inj hx
          exact ⟨r, by simp, rfl, hdec⟩
        | some y =>
          rw [hget] at hx
          have hx : newerOf y e = x := Option.some.inj hx
          rcases newerOf_choice y e with hc | hc
          · exact hold r.key x (by rw [hget, ← hx, hc])
          · exact ⟨r, by simp, rfl, by rw [← hx, hc, hdec]⟩
      · exact hold key x hx
    · rcases List.mem_append.mp hr' with hr' | hr'
      · refine (hle r' hr' x hx).trans ?_
        by_cases hk : r'.key = r.key
        · rw [hk, hrank]
          exact le_max_left _ _
        · rw [MemTable.get_put, if_neg hk]
      · rw [List.mem_singleton] at hr'
        subst hr'
        rw [hdec, Option.some.injEq] at hx
        rw [hrank, hx]
        exact le_max_right _ _

/-- The memtable of a tree opened on a recoverable directory is what the
log says. -/
theorem Recoverable.memtable_newLSMTree {d : Disk} {top : GoString → WithBot ρ}
    (h : Recoverable R env d top) (maxMemBytes : ℤ) :
    (Metastore.newLSMTree env maxMemBytes d).tree.memtable.Ok R env.codec ∧
      (∀ key, ∀ e ∈ (Metastore.newLSMTree env maxMemBytes d).tree.memtable.get key,
        ∃ r ∈ logged d.wal, r.1 = key ∧ env.codec.unmarshal r.2 = some e) ∧
      ∀ r ∈ logged d.wal, ∀ e, env.codec.unmarshal r.2 = some e →
        ↑(R.rank e)
          ≤ optRank R.rank ((Metastore.newLSMTree env maxMemBytes d).tree.memtable.get r.1) := by
  have hrecords : ∀ k v, (k, v) ∈ logged d.wal ↔
      ∃ r ∈ (walReplay d.wal).1, r.key = k ∧ r.value = v := by
    intro k v
    rw [← walReplay_records, List.mem_map]
    simp only [Prod.mk.injEq]
  obtain ⟨hmem, hfrom, hle⟩ := replayWAL_eq (R := R) env.codec (walReplay d.wal).1
    fun r hr e he =>
      (h.log.entries _ ((hrecords r.key r.value).mpr ⟨r, hr, rfl, rfl⟩) e he).1
  refine ⟨hmem, fun key e he => ?_, ?_⟩
  · obtain ⟨r, hr, hkey, hval⟩ := hfrom key e he
    exact ⟨(r.key, r.value), (hrecords _ _).mpr ⟨r, hr, rfl, rfl⟩, hkey, hval⟩
  · rintro ⟨k, v⟩ hr e he
    obtain ⟨r, hmem', rfl, rfl⟩ := (hrecords k v).mp hr
    exact hle r hmem' e he

/-- All its tables are on levels 0 and 1. -/
theorem Recoverable.mem_levels_newLSMTree {d : Disk} {top : GoString → WithBot ρ}
    (h : Recoverable R env d top) (maxMemBytes : ℤ) {t : SSTable} (ht : t ∈ d.tables) :
    t ∈ (Metastore.newLSMTree env maxMemBytes d).tree.level 0
      ++ (Metastore.newLSMTree env maxMemBytes d).tree.level 1 := by
  obtain ⟨-, hlevel, -⟩ := h.files.loadLevels
  have hl := h.files.level_le _ (mem_tables.mp ht)
  rw [List.mem_append]
  rcases Nat.le_one_iff_eq_zero_or_eq_one.mp hl with hl | hl
  · exact Or.inl ((hlevel 0 t).mpr ⟨ht, hl⟩)
  · exact Or.inr ((hlevel 1 t).mpr ⟨ht, hl⟩)

/-- **A tree opened on a recoverable directory** holds just the ranks. -/
theorem Recoverable.top_newLSMTree {d : Disk} {top : GoString → WithBot ρ}
    (h : Recoverable R env d top) (maxMemBytes : ℤ) :
    (Metastore.newLSMTree env maxMemBytes d).tree.top R env.codec = top := by
  obtain ⟨-, hlogged, hle⟩ := h.memtable_newLSMTree maxMemBytes
  obtain ⟨-, hlevel, -⟩ := h.files.loadLevels
  set s := Metastore.newLSMTree env maxMemBytes d
  funext key
  refine le_antisymm ?_ (h.complete key _ (fun t ht => ?_) ?_)
  · -- no version is above the ranks: those in the log, and those in a table
    refine LSMTree.top_le_iff.mpr ⟨fun e hget => ?_, fun t ht => ?_⟩
    · obtain ⟨r, hr, rfl, hdec⟩ := hlogged key e hget
      exact (h.log.entries r hr e hdec).2
    · rcases List.mem_append.mp ht with ht | ht
      · exact h.files.le_top t ((hlevel 0 t).mp ht).1 key
      · exact h.files.le_top t ((hlevel 1 t).mp ht).1 key
  · exact (optRank_get_le_hits (h.mem_levels_newLSMTree maxMemBytes ht) key).trans
      (topRank_hits_le_top _ _ key)
  · rintro r hr rfl e he
    exact (hle r hr e he).trans (optRank_memtable_le_top _ _ _)

/-- **A tree opened on a recoverable directory** satisfies the invariant,
its log stands for its memtable, and it holds just the ranks. -/
theorem Recoverable.newLSMTree {d : Disk} {top : GoString → WithBot ρ}
    (h : Recoverable R env d top) (maxMemBytes : ℤ) :
    Inv R env (newLSMTree env maxMemBytes d) ∧ Logged R env (newLSMTree env maxMemBytes d) ∧
      (newLSMTree env maxMemBytes d).tree.top R env.codec = top := by
  obtain ⟨hmem, hlogged, -⟩ := h.memtable_newLSMTree maxMemBytes
  obtain ⟨hlen, hlevel, hsorted⟩ := h.files.loadLevels
  have htop := h.top_newLSMTree maxMemBytes
  have hbelow := fun t ht => h.mem_levels_newLSMTree maxMemBytes (t := t) ht
  set s := Metastore.newLSMTree env maxMemBytes d
  have hlevels : s.tree.levels = loadLevels d := rfl
  refine ⟨?_, ⟨?_, hlogged⟩, htop⟩
  · exact
      { files := by rw [htop]; exact h.files
        immutable := rfl
        levels := by
          simp only [LSMTree.level, hlevels]
          generalize loadLevels d = levels at hlen
          -- one level, or two: the bounds of the length leave no others
          rcases levels with _ | ⟨a, _ | ⟨b, _ | ⟨c, rest⟩⟩⟩
          · simp at hlen
          · exact Or.inl rfl
          · exact Or.inr rfl
          · simp only [List.length_cons] at hlen
            omega
        mem := hmem
        opened := fun i t ht => ((hlevel i t).mp ht).symm
        sorted := hsorted 1
        below := fun t ht _ key => optRank_get_le_hits (hbelow t ht) key
        cache_wf := LRUCache.wf_new _
        cache := fun el hel => by cases hel }
  · rw [htop]
    exact h.log

end Metastore

end TftAnalytics

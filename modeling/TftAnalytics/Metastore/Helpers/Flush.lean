import TftAnalytics.Metastore.Helpers.Invariant
/-!
# Metastore — flush and compaction keep every rank

Helper layer. Wherever a flush or a compaction stops, the tree that
returned still satisfies the invariant with the ranks it had, and the
directory a crash left behind is recoverable with them. A write raises the
rank of its key to at least that of its entry.
-/

namespace TftAnalytics

namespace Metastore

variable {ρ : Type*} [LinearOrder ρ] {R : Ranking ρ} {env : Env} {s : Store}

/-- What an operation that writes nothing new may do: return a tree of the
same ranks, or leave a directory of the same ranks. A tree whose log does
not stand for its memtable promises only the files after a crash. -/
def Exit.Keeps (R : Ranking ρ) (env : Env) (s : Store) : Exit → Prop
  | .returned s' _ => Inv R env s' ∧ s'.tree.top R env.codec = s.tree.top R env.codec ∧
      (Logged R env s → Logged R env s') ∧ (s'.disk.wal = s.disk.wal ∨ Logged R env s')
  | .crashed d => Files R env d (s.tree.top R env.codec) ∧
      (Logged R env s → Recoverable R env d (s.tree.top R env.codec))

/-- Operations one after the other. -/
theorem Exit.Keeps.trans {s' : Store} {x : Exit} (h : (Exit.returned s' false).Keeps R env s)
    (h' : x.Keeps R env s') : x.Keeps R env s := by
  obtain ⟨-, htop, hlogged, hwal⟩ := h
  cases x with
  | returned s'' err =>
    obtain ⟨hinv, htop', hlogged', hwal'⟩ := h'
    refine ⟨hinv, htop'.trans htop, fun hl => hlogged' (hlogged hl), ?_⟩
    rcases hwal' with hwal' | hdone
    · rcases hwal with hwal | hdone
      · exact Or.inl (hwal'.trans hwal)
      · exact Or.inr (hlogged' hdone)
    · exact Or.inr hdone
  | crashed d =>
    obtain ⟨hfiles, hrec⟩ := h'
    rw [htop] at hfiles hrec
    exact ⟨hfiles, fun hl => hrec (hlogged hl)⟩

/-- The memtable and the tables of a tree are in its directory. -/
theorem Inv.recoverable (h : Inv R env s) (hl : Logged R env s) :
    Recoverable R env s.disk (s.tree.top R env.codec) where
  files := h.files
  log := hl.log
  complete := by
    intro key x htables hlog
    refine LSMTree.top_le_iff.mpr ⟨fun e hget => ?_, fun t ht => ?_⟩
    · obtain ⟨r, hr, hkey, hval⟩ := hl.mem key e hget
      exact hlog r hr hkey e hval
    · rcases List.mem_append.mp ht with ht | ht
      · exact htables t (h.opened 0 t ht).2
      · exact htables t (h.opened 1 t ht).2

/-- Reading the clock and counting files changes no rank. -/
theorem Inv.tick (h : Inv R env s) : Inv R env s.tick :=
  { files := h.files.of_eq rfl (Nat.le_succ _), immutable := h.immutable, levels := h.levels,
    mem := h.mem, opened := h.opened, sorted := h.sorted, below := h.below,
    cache_wf := h.cache_wf, cache := h.cache }

/-- A new name is later than those in the directory. -/
theorem Inv.nano_lt_path (h : Inv R env s) (level : ℕ) :
    ∀ f ∈ s.disk.files, f.1.nano < (s.nextSSTablePath env level).nano := h.files.nano_lt

/-- What an unfinished table leaves behind is a file like any other. -/
theorem Files.leave {d : Disk} {top : GoString → WithBot ρ} (h : Files R env d top)
    (path : SSTPath) (hlevel : path.level ≤ 1) (hfresh : ∀ f ∈ d.files, f.1.nano < path.nano)
    (hlt : path.nano < env.nano d.clock) {data : TableData}
    (hdata : (SSTable.mk path data).Fits R env d top) (left : TableLeft) :
    Files R env (d.leave path data left) top := by
  cases left with
  | absent => exact h
  | incomplete => exact h.create hlevel hfresh hlt (by simp)
  | complete => exact h.create hlevel hfresh hlt (by rintro _ ⟨⟩; exact hdata)

/-! ## Directories that only gain or lose table files -/

theorem mem_tables_create_of_mem {d : Disk} {path : SSTPath} {content : Option TableData}
    {t : SSTable} (h : t ∈ d.tables) (hne : t.path ≠ path) :
    t ∈ (d.create path content).tables := by
  rw [mem_tables, Disk.create, List.mem_cons, List.mem_filter]
  exact Or.inr ⟨mem_tables.mp h, by simpa using hne⟩

theorem mem_tables_create_self {d : Disk} {path : SSTPath} {data : TableData} :
    ⟨path, data⟩ ∈ (d.create path (some data)).tables := by
  rw [mem_tables]
  exact List.mem_cons_self

/-- A file under a fresh stamp hides no table. -/
theorem mem_tables_leave {d : Disk} {path : SSTPath} {data : TableData} (left : TableLeft)
    (hfresh : ∀ f ∈ d.files, f.1.nano < path.nano) {t : SSTable} (h : t ∈ d.tables) :
    t ∈ (d.leave path data left).tables := by
  have hne : t.path ≠ path := by
    rintro rfl
    exact absurd (hfresh _ (mem_tables.mp h)) (lt_irrefl _)
  cases left with
  | absent => exact h
  | incomplete => exact mem_tables_create_of_mem h hne
  | complete => exact mem_tables_create_of_mem h hne

theorem mem_tables_leave_iff {d : Disk} {path : SSTPath} {data : TableData} (left : TableLeft)
    {t : SSTable} (h : t ∈ (d.leave path data left).tables) : t = ⟨path, data⟩ ∨ t ∈ d.tables := by
  cases left with
  | absent => exact Or.inr h
  | incomplete =>
    rcases mem_tables_create h with ⟨hnone, -⟩ | hold
    · simp at hnone
    · exact Or.inr hold
  | complete =>
    rcases mem_tables_create h with ⟨hdata, hpath⟩ | hold
    · rw [Option.some.injEq] at hdata
      exact Or.inl (by cases t; simp_all)
    · exact Or.inr hold

@[simp] theorem leave_wal (d : Disk) (path : SSTPath) (data : TableData) (left : TableLeft) :
    (d.leave path data left).wal = d.wal := by cases left <;> rfl

@[simp] theorem leave_synced (d : Disk) (path : SSTPath) (data : TableData) (left : TableLeft) :
    (d.leave path data left).synced = d.synced := by cases left <;> rfl

/-- The log of a directory, when only table files change. -/
theorem Log.of_eq {c : Codec} {d d' : Disk} {top : GoString → WithBot ρ} (h : Log R c d top)
    (hwal : d'.wal = d.wal) (hsynced : d'.synced = d.synced) : Log R c d' top where
  synced_le := by rw [hwal, hsynced]; exact h.synced_le
  tail := by rw [hwal, hsynced]; exact h.tail
  entries := by rw [hwal]; exact h.entries

/-- **A directory that gained files** is as recoverable. -/
theorem Recoverable.of_subset {d d' : Disk} {top : GoString → WithBot ρ}
    (h : Recoverable R env d top) (hfiles : Files R env d' top)
    (hsub : ∀ key x, (∀ t ∈ d'.tables, optRank R.rank (t.get env.codec key) ≤ x) →
      ∀ t ∈ d.tables, optRank R.rank (t.get env.codec key) ≤ x)
    (hwal : d'.wal = d.wal) (hsynced : d'.synced = d.synced) : Recoverable R env d' top where
  files := hfiles
  log := h.log.of_eq hwal hsynced
  complete := by
    intro key x htables hlog
    rw [hwal] at hlog
    exact h.complete key x (hsub key x htables) hlog

/-- The same tree over a directory with another table file in it. -/
theorem Inv.setDisk (h : Inv R env s) {d : Disk} (hfiles : Files R env d (s.tree.top R env.codec))
    (hsub : ∀ t ∈ s.disk.tables, t ∈ d.tables)
    (hnew : ∀ t ∈ d.tables, t ∈ s.disk.tables ∨ (t.path.level = 1 → ∀ key,
      optRank R.rank (t.get env.codec key)
        ≤ topRank R.rank (hits env.codec key (s.tree.level 0 ++ s.tree.level 1)))) :
    Inv R env { s with disk := d } :=
  { files := hfiles, immutable := h.immutable, levels := h.levels, mem := h.mem,
    opened := fun i t ht => ⟨(h.opened i t ht).1, hsub t (h.opened i t ht).2⟩
    sorted := h.sorted
    below := fun t ht hl => (hnew t ht).elim (fun hold => h.below t hold hl) fun hnew => hnew hl
    cache_wf := h.cache_wf, cache := h.cache }

/-! ## Writing a table -/

section Written

variable {level : ℕ} {data : TableData}

/-- **A table under a new name** is among the files, wherever its write
stops. -/
theorem Inv.files_leave (h : Inv R env s) (hlevel : level ≤ 1)
    (hfit : (SSTable.mk (s.nextSSTablePath env level) data).Fits R env s.disk
      (s.tree.top R env.codec)) (left : TableLeft) :
    Files R env (s.tick.disk.leave (s.nextSSTablePath env level) data left)
      (s.tree.top R env.codec) :=
  h.tick.files.leave _ hlevel (h.nano_lt_path level) (env.nano_strictMono (Nat.lt_succ_self _))
    ⟨hfit.ok, hfit.le_top, hfit.covers⟩ left

/-- **A write that fails** leaves the tree as it was. -/
theorem Inv.keeps_error (h : Inv R env s) (hlevel : level ≤ 1)
    (hfit : (SSTable.mk (s.nextSSTablePath env level) data).Fits R env s.disk
      (s.tree.top R env.codec))
    (hbelow : level = 1 → ∀ key,
      optRank R.rank ((SSTable.mk (s.nextSSTablePath env level) data).get env.codec key)
        ≤ topRank R.rank (hits env.codec key (s.tree.level 0 ++ s.tree.level 1)))
    (left : TableLeft) :
    (Exit.returned { s.tick with
      disk := s.tick.disk.leave (s.nextSSTablePath env level) data left } true).Keeps R env s := by
  refine ⟨h.tick.setDisk (h.files_leave hlevel hfit left)
    (fun t => mem_tables_leave (d := s.tick.disk) left (h.nano_lt_path level))
    fun t ht => ?_, rfl,
    fun hl => ⟨hl.log.of_eq (leave_wal ..) (leave_synced ..), ?_⟩, Or.inl (leave_wal ..)⟩
  · rcases mem_tables_leave_iff left ht with rfl | hold
    · exact Or.inr hbelow
    · exact Or.inl hold
  · simp only [leave_wal]
    exact hl.mem

/-- **A crash in a write** leaves one file more at most. -/
theorem Inv.keeps_crash (h : Inv R env s) (hlevel : level ≤ 1)
    (hfit : (SSTable.mk (s.nextSSTablePath env level) data).Fits R env s.disk
      (s.tree.top R env.codec)) (left : TableLeft) :
    (Exit.crashed (s.tick.disk.leave (s.nextSSTablePath env level) data left)).Keeps R env s :=
  ⟨h.files_leave hlevel hfit left, fun hl =>
    (h.recoverable hl).of_subset (h.files_leave hlevel hfit left)
      (fun _ _ hx t ht =>
        hx t (mem_tables_leave (d := s.tick.disk) left (h.nano_lt_path level) ht))
      (leave_wal ..) (leave_synced ..)⟩

end Written

/-! ## Compaction -/

/-- Padding adds empty levels. -/
theorem getD_padLevels (levels : List (List SSTable)) (i j : ℕ) :
    (padLevels levels i).getD j [] = levels.getD j [] := by
  simp only [padLevels, List.getD_eq_getElem?_getD, List.getElem?_append]
  split_ifs with hj
  · rfl
  · rw [List.getElem?_eq_none (not_lt.mp hj), List.getElem?_replicate]
    split_ifs <;> rfl

@[simp] theorem padded_level (s : Store) (i : ℕ) : (s.padded 0).tree.level i = s.tree.level i :=
  getD_padLevels _ _ _

@[simp] theorem padded_top (s : Store) :
    (s.padded 0).tree.top R env.codec = s.tree.top R env.codec := by
  funext key
  rw [LSMTree.top, LSMTree.versions, padded_level, padded_level]
  rfl

theorem Inv.padded_levels (h : Inv R env s) :
    (s.padded 0).tree.levels = [s.tree.level 0, s.tree.level 1] := by
  rcases h.levels with hl | hl
  · have hnil : s.tree.level 1 = [] := by rw [LSMTree.level, hl]; rfl
    rw [hnil, Store.padded, hl]
    rfl
  · rw [Store.padded, hl]
    rfl

theorem Inv.padded (h : Inv R env s) : Inv R env (s.padded 0) where
  files := by rw [padded_top]; exact h.files
  immutable := h.immutable
  levels := Or.inr (by rw [h.padded_levels, padded_level, padded_level])
  mem := h.mem
  opened := by simp only [padded_level]; exact h.opened
  sorted := by simp only [padded_level]; exact h.sorted
  below := by simp only [padded_level]; exact h.below
  cache_wf := h.cache_wf
  cache := by rw [padded_top]; exact h.cache

theorem Logged.padded (h : Logged R env s) : Logged R env (s.padded 0) :=
  ⟨by rw [padded_top]; exact h.log, h.mem⟩

/-- **The table a compaction writes**: well formed, with the largest rank
of each key among the sources, and fit for a place on level 1. -/
theorem Inv.merged_table (h : Inv R env s) :
    ∃ es data, mergeTables env.codec (s.tree.level 0 ++ s.tree.level 1) = some es ∧
      tableRecords env.codec es = some data ∧ ∀ path,
        (∀ key, optRank R.rank ((SSTable.mk path data).get env.codec key)
          = topRank R.rank (hits env.codec key (s.tree.level 0 ++ s.tree.level 1))) ∧
        (SSTable.mk path data).Fits R env s.disk (s.tree.top R env.codec) := by
  have hok : ∀ t ∈ s.tree.level 0 ++ s.tree.level 1, t.Ok R env.codec := by
    intro t ht
    rcases List.mem_append.mp ht with ht | ht <;> exact h.table_ok ht
  obtain ⟨es, hes, hst, hnodup, hrank⟩ := mergeTables_eq hok
  obtain ⟨data, hdata, htable⟩ := tableRecords_eq hst hnodup
  refine ⟨es, data, hes, hdata, fun path => ?_⟩
  have hget : ∀ key, optRank R.rank ((SSTable.mk path data).get env.codec key)
      = topRank R.rank (hits env.codec key (s.tree.level 0 ++ s.tree.level 1)) :=
    fun key => hrank key _ ((htable path).2 key)
  refine ⟨hget, ⟨(htable path).1, fun key => ?_, fun _ t ht hl key => ?_⟩⟩
  · rw [hget]
    exact topRank_hits_le_top _ _ key
  · rw [hget]
    exact h.below t ht hl key

/-- A source that is gone is covered by the table it was merged into. -/
theorem Inv.le_of_unlinked (h : Inv R env s) {d : Disk} {path : SSTPath} {data : TableData}
    (hget : ∀ key, optRank R.rank ((SSTable.mk path data).get env.codec key)
      = topRank R.rank (hits env.codec key (s.tree.level 0 ++ s.tree.level 1)))
    (hfresh : ∀ f ∈ s.disk.files, f.1.nano < path.nano)
    {paths : List SSTPath}
    (hpaths : ∀ p ∈ paths, ∃ t ∈ s.tree.level 0 ++ s.tree.level 1, t.path = p)
    (hd : d = (s.disk.create path (some data)).unlink paths) :
    ⟨path, data⟩ ∈ d.tables ∧ ∀ key x, (∀ t ∈ d.tables, optRank R.rank (t.get env.codec key) ≤ x) →
      ∀ t ∈ s.disk.tables, optRank R.rank (t.get env.codec key) ≤ x := by
  have hopen : ∀ t ∈ s.tree.level 0 ++ s.tree.level 1, t ∈ s.disk.tables := by
    intro t ht
    rcases List.mem_append.mp ht with ht | ht
    · exact (h.opened 0 t ht).2
    · exact (h.opened 1 t ht).2
  have hne : ∀ t ∈ s.disk.tables, t.path ≠ path := by
    rintro t ht rfl
    exact absurd (hfresh _ (mem_tables.mp ht)) (lt_irrefl _)
  have hnew : ⟨path, data⟩ ∈ d.tables := by
    rw [hd, mem_tables_unlink]
    refine ⟨mem_tables_create_self, fun hmem => ?_⟩
    obtain ⟨t, ht, htpath⟩ := hpaths _ hmem
    exact hne t (hopen t ht) htpath
  refine ⟨hnew, fun key x hx t ht => ?_⟩
  -- a table that is unlinked is a source, and the merged one stands for it
  by_cases hmem : t.path ∈ paths
  · obtain ⟨t', ht', hpath⟩ := hpaths _ hmem
    obtain rfl : t' = t := h.files.eq_of_nano (hopen t' ht') ht (by rw [hpath])
    exact (optRank_get_le_hits ht' key).trans ((hget key).symm.trans_le (hx _ hnew))
  · refine hx t ?_
    rw [hd, mem_tables_unlink]
    exact ⟨mem_tables_create_of_mem ht (hne t ht), hmem⟩

/-- **The tree after a compaction**: the merged table stands for all. -/
theorem Inv.swapLevels (h : Inv R env s) {d : Disk} {t : SSTable}
    (hlevels : s.tree.levels = [s.tree.level 0, s.tree.level 1]) (hlevel : t.path.level = 1)
    (hget : ∀ key, optRank R.rank (t.get env.codec key)
      = topRank R.rank (hits env.codec key (s.tree.level 0 ++ s.tree.level 1)))
    (hfiles : Files R env d (s.tree.top R env.codec)) (hnew : t ∈ d.tables)
    (hsub : ∀ u ∈ d.tables, u = t ∨ u ∈ s.disk.tables) :
    (s.tree.swapLevels 0 t).top R env.codec = s.tree.top R env.codec ∧
      Inv R env { tree := s.tree.swapLevels 0 t, disk := d } := by
  -- both levels are merged, so the new tree has one table
  have htl : (s.tree.swapLevels 0 t).levels = [[], [t]] := by
    rw [LSMTree.swapLevels, hlevels]
    rfl
  have hl0 : (s.tree.swapLevels 0 t).level 0 = [] := by rw [LSMTree.level, htl]; rfl
  have hl1 : (s.tree.swapLevels 0 t).level 1 = [t] := by rw [LSMTree.level, htl]; rfl
  have hhits : ∀ key, topRank R.rank (hits env.codec key [t])
      = topRank R.rank (hits env.codec key (s.tree.level 0 ++ s.tree.level 1)) :=
    fun key => (topRank_hits_singleton t key).trans (hget key)
  have htop : (s.tree.swapLevels 0 t).top R env.codec = s.tree.top R env.codec := by
    funext key
    rw [LSMTree.top_eq, hl0, hl1, List.nil_append, hhits, LSMTree.top_eq]
    rfl
  refine ⟨htop, ?_⟩
  exact
    { files := by simp only [htop]; exact hfiles
      immutable := h.immutable
      levels := Or.inr (by simp only [htl, hl0, hl1])
      mem := h.mem
      opened := by
        intro i u hu
        rcases i with _ | _ | i
        · simp [hl0] at hu
        · rw [hl1, List.mem_singleton] at hu
          subst hu
          exact ⟨hlevel, hnew⟩
        · rw [LSMTree.level, htl] at hu
          exact absurd hu List.not_mem_nil
      sorted := by simp [hl1]
      below := by
        intro u hu hul key
        simp only [hl0, hl1, List.nil_append, hhits]
        rcases hsub u hu with rfl | hold
        · exact (hget key).le
        · exact h.below u hold hul key
      cache_wf := h.cache_wf
      cache := by simp only [htop]; exact h.cache }

/-- **A merge, wherever it stops, keeps every rank.** -/
theorem Inv.mergeSources (h : Inv R env s)
    (hlevels : s.tree.levels = [s.tree.level 0, s.tree.level 1]) (io : FlushOutcome) :
    (mergeSources env io 0 (s.tree.level 0 ++ s.tree.level 1) s).Keeps R env s := by
  obtain ⟨es, data, hes, hdata, htable⟩ := h.merged_table
  rw [Metastore.mergeSources, hes]
  cases hscan : io.scan with
  | false => exact ⟨h, rfl, id, Or.inl rfl⟩
  | true =>
    set path := s.nextSSTablePath env (0 + 1)
    obtain ⟨hget, hfit⟩ := htable path
    have htick := h.tick
    have hfresh : ∀ f ∈ s.tick.disk.files, f.1.nano < path.nano := h.nano_lt_path 1
    simp only [writeSSTable, hdata]
    cases hm : io.merge with
    | error left => exact h.keeps_error le_rfl hfit (fun _ key => (hget key).le) left
    | crash left => exact h.keeps_crash le_rfl hfit left
    | ok =>
      -- the sources that could be unlinked
      set paths := ((s.tree.level 0 ++ s.tree.level 1).map (·.path)).filter io.unlinked
      have hpaths : ∀ p ∈ paths, ∃ t ∈ s.tree.level 0 ++ s.tree.level 1, t.path = p :=
        fun p hp => List.mem_map.mp (List.mem_of_mem_filter hp)
      obtain ⟨hnew, hgone⟩ := htick.le_of_unlinked hget hfresh hpaths rfl
      have hfiles := (h.files_leave le_rfl hfit .complete).unlink paths
      simp only [removeSources]
      split_ifs
      · exact ⟨hfiles, fun hl => (h.recoverable hl).of_subset hfiles hgone rfl rfl⟩
      -- an unlink that fails leaves a source on the disk, below the merged table
      · obtain ⟨htop, hinv⟩ := htick.swapLevels hlevels rfl hget hfiles hnew fun u hu => by
          have hu := (mem_tables_unlink.mp hu).1
          exact mem_tables_leave_iff .complete hu
        exact ⟨hinv, htop, fun hl => ⟨by simp only [htop]; exact hl.log.of_eq rfl rfl, hl.mem⟩,
          Or.inl rfl⟩

/-- **Compaction, wherever it stops, keeps every rank.** -/
theorem Inv.compactLocked (h : Inv R env s) (io : FlushOutcome) :
    (compactLocked env io 0 s).Keeps R env s := by
  have hpad : (Exit.returned (s.padded 0) false).Keeps R env s :=
    ⟨h.padded, padded_top s, Logged.padded, Or.inl rfl⟩
  refine hpad.trans ?_
  simp only [Metastore.compactLocked]
  split_ifs
  · exact ⟨h.padded, rfl, id, Or.inl rfl⟩
  · exact h.padded.mergeSources (by rw [h.padded_levels, padded_level, padded_level]) io

/-! ## Flushing -/

/-- **The table a flush writes** holds what the memtable held. -/
theorem Inv.flushed_table (h : Inv R env s) :
    ∃ data, tableRecords env.codec s.tree.memtable.sortedEntries = some data ∧
      ∀ path : SSTPath, path.level = 0 →
        (∀ key, (SSTable.mk path data).get env.codec key = s.tree.memtable.get key) ∧
        (SSTable.mk path data).Fits R env s.disk (s.tree.top R env.codec) := by
  have hst : ∀ e ∈ s.tree.memtable.sortedEntries, e ∈ Storable R env.codec (entryKey e) := by
    intro e he
    obtain ⟨key, hget⟩ := MemTable.mem_sortedEntries.mp he
    have hmem := h.mem key e hget
    exact ⟨hmem.1, rfl, hmem.2.2⟩
  obtain ⟨data, hdata, htable⟩ := tableRecords_eq hst h.mem.nodup_sortedEntries
  refine ⟨data, hdata, fun path hpath => ?_⟩
  have hget : ∀ key, (SSTable.mk path data).get env.codec key = s.tree.memtable.get key := by
    refine fun key => Option.ext fun e => ?_
    rw [(htable path).2, MemTable.mem_sortedEntries]
    constructor
    · rintro ⟨⟨key', hget⟩, hkey⟩
      have hkey' := (h.mem key' e hget).2.1
      rwa [← hkey, hkey']
    · exact fun hget => ⟨⟨key, hget⟩, (h.mem key e hget).2.1⟩
  refine ⟨hget, ⟨(htable path).1, fun key => ?_,
    fun h1 => absurd (hpath.symm.trans h1) (by simp)⟩⟩
  rw [hget]
  exact optRank_memtable_le_top _ _ key

/-- Installing puts the table behind those of level 0. -/
theorem Inv.level_install (h : Inv R env s) (t : SSTable) (i : ℕ) :
    (s.tree.swapMemtable.install t).level i
      = if i = 0 then s.tree.level 0 ++ [t] else s.tree.level i := by
  have hlevels : (s.tree.swapMemtable.install t).levels
      = s.tree.levels.set 0 (s.tree.level 0 ++ [t]) := rfl
  have hlen : 0 < s.tree.levels.length := by rcases h.levels with hl | hl <;> rw [hl] <;> simp
  simp only [LSMTree.level, hlevels, List.getD_eq_getElem?_getD, List.getElem?_set]
  rcases i with _ | i
  · simp [hlen]
  · simp

/-- The tables then hold what the memtable held, too. -/
theorem Inv.topRank_hits_install (h : Inv R env s) {t : SSTable}
    (hget : ∀ key, t.get env.codec key = s.tree.memtable.get key) (key : GoString) :
    topRank R.rank (hits env.codec key ((s.tree.swapMemtable.install t).level 0
        ++ (s.tree.swapMemtable.install t).level 1))
      = max (optRank R.rank (s.tree.memtable.get key))
          (topRank R.rank (hits env.codec key (s.tree.level 0 ++ s.tree.level 1))) := by
  have hone : topRank R.rank (hits env.codec key [t])
      = optRank R.rank (s.tree.memtable.get key) := by
    rw [topRank_hits_singleton, hget]
  rw [h.level_install, h.level_install, if_pos rfl, if_neg (by decide)]
  simp only [hits_append, topRank_append, hone]
  rw [max_comm (topRank R.rank (hits env.codec key (s.tree.level 0))), max_assoc]

/-- **The tree after the flushed table is installed.** -/
theorem Inv.install (h : Inv R env s) {d : Disk} {t : SSTable} (hlevel : t.path.level = 0)
    (hget : ∀ key, t.get env.codec key = s.tree.memtable.get key)
    (hfiles : Files R env d (s.tree.top R env.codec)) (hnew : t ∈ d.tables)
    (hsub : ∀ u ∈ s.disk.tables, u ∈ d.tables)
    (hold : ∀ u ∈ d.tables, u = t ∨ u ∈ s.disk.tables) :
    (s.tree.swapMemtable.install t).top R env.codec = s.tree.top R env.codec ∧
      Inv R env { tree := s.tree.swapMemtable.install t, disk := d } := by
  have hl := h.level_install t
  have hhits := h.topRank_hits_install hget
  set t' := s.tree.swapMemtable.install t
  have hl0 : t'.level 0 = s.tree.level 0 ++ [t] := hl 0
  have hl1 : t'.level 1 = s.tree.level 1 := hl 1
  -- what the memtable held is in the new table, and the memtable is empty
  have htop : t'.top R env.codec = s.tree.top R env.codec := by
    funext key
    have hnone : t'.memtable.get key = none := rfl
    rw [LSMTree.top_eq, hhits, hnone, LSMTree.top_eq]
    simp
  refine ⟨htop, ?_⟩
  exact
    { files := by simp only [htop]; exact hfiles
      immutable := rfl
      levels := by
        have hlevels : t'.levels = s.tree.levels.set 0 (s.tree.level 0 ++ [t]) := rfl
        refine h.levels.imp (fun hl => ?_) fun hl => ?_ <;> simp only [hl0, hl1, hlevels] <;>
          rw [hl] <;> rfl
      mem := MemTable.ok_new
      opened := by
        intro i u hu
        simp only [hl] at hu
        split_ifs at hu with hi
        · rcases List.mem_append.mp hu with hu | hu
          · exact ⟨hi ▸ (h.opened 0 u hu).1, hsub u (h.opened 0 u hu).2⟩
          · rw [List.mem_singleton] at hu
            subst hu
            exact ⟨hi ▸ hlevel, hnew⟩
        · exact ⟨(h.opened i u hu).1, hsub u (h.opened i u hu).2⟩
      sorted := by simp only [hl1]; exact h.sorted
      below := by
        intro u hu hul key
        simp only [hhits]
        rcases hold u hu with rfl | hu
        · exact absurd (hlevel.symm.trans hul) (by simp)
        · exact (h.below u hu hul key).trans (le_max_right _ _)
      cache_wf := h.cache_wf
      cache := by simp only [htop]; exact h.cache }

/-- A truncated log under an empty memtable is a log of everything in it. -/
theorem Inv.truncateWal (h : Inv R env s) (hmem : ∀ key, s.tree.memtable.get key = none)
    (reset : Bool) : Inv R env (s.truncateWal reset) ∧ Logged R env (s.truncateWal reset) :=
  ⟨{ files := h.files.of_eq rfl le_rfl, immutable := h.immutable, levels := h.levels, mem := h.mem,
     opened := h.opened, sorted := h.sorted, below := h.below, cache_wf := h.cache_wf,
     cache := h.cache },
   { log :=
      { synced_le := le_rfl
        tail := Or.inl rfl
        entries := by simp [Store.truncateWal] }
     mem := fun key e he => by
      have hnone : s.tree.memtable.get key = some e := he
      simp [hmem key] at hnone }⟩

/-- **Rotation, wherever it stops, keeps every rank**, the memtable being
empty. -/
theorem Inv.rotate (h : Inv R env s) (hmem : ∀ key, s.tree.memtable.get key = none)
    (call : Call RotateStop) : (rotate call s).Keeps R env s := by
  have htruncated : ∀ reset err, (Exit.returned (s.truncateWal reset) err).Keeps R env s :=
    fun reset _ => ⟨(h.truncateWal hmem reset).1, rfl, fun _ => (h.truncateWal hmem reset).2,
      Or.inr (h.truncateWal hmem reset).2⟩
  have hcut : (Exit.crashed (s.truncateWal true).disk).Keeps R env s :=
    ⟨(h.truncateWal hmem true).1.files, fun _ =>
      (h.truncateWal hmem true).1.recoverable (h.truncateWal hmem true).2⟩
  match call with
  | .ok => exact htruncated true false
  | .error .truncate => exact ⟨h, rfl, id, Or.inl rfl⟩
  | .error .seek => exact htruncated false true
  | .error .sync => exact htruncated true true
  | .crash .truncate => exact ⟨h.files, h.recoverable⟩
  | .crash .seek => exact hcut
  | .crash .sync => exact hcut

theorem Inv.finishFlush (h : Inv R env s) (hmem : ∀ key, s.tree.memtable.get key = none)
    (io : FlushOutcome) : (finishFlush env io s).Keeps R env s := by
  have hrotate := h.rotate hmem io.rotate
  unfold Metastore.finishFlush
  cases hr : Metastore.rotate io.rotate s with
  | crashed d =>
    rw [hr] at hrotate
    exact hrotate
  | returned s' err =>
    rw [hr] at hrotate
    cases err with
    | true => exact hrotate
    | false =>
      simp only
      split_ifs
      · exact hrotate.trans (hrotate.1.compactLocked io)
      · exact hrotate

/-- **A flush, wherever it stops, keeps every rank.** -/
theorem Inv.flushLocked (h : Inv R env s) (io : FlushOutcome) :
    (flushLocked env io s).Keeps R env s := by
  unfold Metastore.flushLocked
  split_ifs
  · exact ⟨h, rfl, id, Or.inl rfl⟩
  obtain ⟨data, hdata, htable⟩ := h.flushed_table
  set path := s.nextSSTablePath env 0
  obtain ⟨hget, hfit⟩ := htable path rfl
  have htick := h.tick
  have hfresh : ∀ f ∈ s.tick.disk.files, f.1.nano < path.nano := h.nano_lt_path 0
  simp only [writeSSTable, hdata]
  cases hw : io.write with
  | error left =>
    -- the memtable is put back
    have hroll : s.tick.tree.swapMemtable.rollback s.tree.memtable = s.tick.tree := by
      rw [LSMTree.rollback, LSMTree.swapMemtable, ← htick.immutable]
      rfl
    simp only [hroll]
    exact h.keeps_error (Nat.zero_le _) hfit (fun h1 => absurd h1 (by decide)) left
  | crash left => exact h.keeps_crash (Nat.zero_le _) hfit left
  | ok =>
    -- the table is installed before the log is rotated
    obtain ⟨htop, hinv⟩ := htick.install (t := ⟨path, data⟩) rfl hget
      (h.files_leave (Nat.zero_le _) hfit .complete) mem_tables_create_self
      (fun u hu => mem_tables_leave .complete hfresh hu) fun u hu => mem_tables_leave_iff .complete hu
    have hinstalled : (Exit.returned { tree := s.tick.tree.swapMemtable.install ⟨path, data⟩
                                       disk := s.tick.disk.create path (some data) } false).Keeps
        R env s :=
      ⟨hinv, htop, fun hl => ⟨by simp only [htop]; exact hl.log.of_eq rfl rfl,
        fun key e he => by cases he⟩, Or.inl rfl⟩
    exact hinstalled.trans (hinv.finishFlush (fun _ => rfl) io)

end Metastore

end TftAnalytics

import TftAnalytics.Metastore.Helpers.Write
import TftAnalytics.Metastore.Model.History
/-!
# Metastore — the files of a directory

A flush adds a table to level 0, and once there are five a compaction
merges them and level 1 into one table. So a directory has five files at
most, all of them open, as long as no operation is hindered: by an error,
by the machine stopping in a flush, or by a remove that fails, which
`compactLocked` ignores. Each operation that is leaves a few files more.
-/

namespace TftAnalytics

namespace Metastore

/-- What a flush of this tree may have to remove can be removed. -/
def Store.removes (env : Env) (io : FlushOutcome) (s : Store) : Bool :=
  io.unlinked (s.nextSSTablePath env 0) &&
    (s.tree.level 0 ++ s.tree.level 1).all fun t => io.unlinked t.path

/-- How the calls of an action go that may flush. -/
def Action.outcome : Action → Option FlushOutcome
  | .write _ io => some io
  | .flush io => some io
  | _ => none

/-- The operation stops with an error, or the machine does. -/
def Exit.fails : Exit → Bool
  | .returned _ err => err
  | .crashed _ => true

/-- **The action is hindered.** A machine that stops between operations, or
while the log is written, hinders none. -/
def Action.hindered (env : Env) (s : Store) (a : Action) : Bool :=
  match a.outcome with
  | some io => (a.exit env s).1.fails || !s.removes env io
  | none => false

/-- How many actions are, from `h` on. -/
def hindrances (env : Env) (maxMemBytes : ℤ) : History → List Action → ℕ
  | _, [] => 0
  | h, a :: acts =>
    (a.hindered env h.store).toNat + hindrances env maxMemBytes (h.step env maxMemBytes a) acts

variable {env : Env} {s s' : Store} {d d' : Disk}

/-! ## Directories -/

/-- **The names in a directory**: levels 0 and 1, and stamps of the past, no
two the same. -/
structure Disk.Tidy (env : Env) (d : Disk) : Prop where
  level_le : ∀ f ∈ d.files, f.1.level ≤ 1
  nano_lt : ∀ f ∈ d.files, f.1.nano < env.nano d.clock
  distinct : (d.files.map fun f => f.1.nano).Nodup

/-- A directory that has gained a file at most. -/
structure Disk.Gains (env : Env) (d d' : Disk) : Prop where
  tidy : d'.Tidy env
  files : d.files ⊆ d'.files
  length_le : d'.files.length ≤ d.files.length + 1

theorem Disk.Tidy.of_eq (h : d.Tidy env) (hfiles : d'.files = d.files)
    (hclock : d.clock ≤ d'.clock) : d'.Tidy env where
  level_le := hfiles ▸ h.level_le
  nano_lt f hf := (h.nano_lt f (hfiles ▸ hf)).trans_le (env.nano_strictMono.monotone hclock)
  distinct := hfiles ▸ h.distinct

/-- Creating a file under a name that is new. -/
theorem Disk.Tidy.create (h : d.Tidy env) {path : SSTPath} (hlevel : path.level ≤ 1)
    (hfresh : ∀ f ∈ d.files, f.1.nano < path.nano) (hlt : path.nano < env.nano d.clock)
    (content : Option TableData) : d.Gains env (d.create path content) := by
  have hnew : d.files.filter (·.1 ≠ path) = d.files := by
    refine List.filter_eq_self.mpr fun f hf => decide_eq_true ?_
    rintro rfl
    exact absurd (hfresh f hf) (lt_irrefl _)
  have hfiles : (d.create path content).files = (path, content) :: d.files := by
    rw [Disk.create, hnew]
  refine ⟨⟨?_, ?_, ?_⟩, ?_, ?_⟩ <;> rw [hfiles]
  · exact List.forall_mem_cons.mpr ⟨hlevel, h.level_le⟩
  · exact List.forall_mem_cons.mpr ⟨hlt, h.nano_lt⟩
  · refine List.nodup_cons.mpr ⟨fun hmem => ?_, h.distinct⟩
    obtain ⟨f, hf, hnano⟩ := List.mem_map.mp hmem
    exact absurd (hfresh f hf) (hnano ▸ lt_irrefl _)
  · exact List.subset_cons_self _ _
  · exact le_rfl

/-- **Writing a table** gains a file at most, and the table if it is
written. -/
theorem gains_writeSSTable (c : Codec) (h : d.Tidy env) {path : SSTPath} (hlevel : path.level ≤ 1)
    (hfresh : ∀ f ∈ d.files, f.1.nano < path.nano) (hlt : path.nano < env.nano d.clock)
    (entries : List StatEntry) (call : Call TableLeft) :
    match writeSSTable c path entries call d with
    | .ok t d' => t.path = path ∧ d' = d.create path (some t.data)
    | .error d' => d.Gains env d'
    | .crash d' => d.Gains env d' := by
  have hcreate := h.create hlevel hfresh hlt
  have hsame : d.Gains env d := ⟨h, List.Subset.refl _, Nat.le_succ _⟩
  have hleave : ∀ data left, d.Gains env (d.leave path data left) := by
    intro data left
    cases left with
    | absent => exact hsame
    | incomplete => exact hcreate none
    | complete => exact hcreate (some data)
  unfold writeSSTable
  cases tableRecords c entries with
  | none => cases call <;> exact hcreate none
  | some data =>
    cases call with
    | ok => exact ⟨rfl, rfl⟩
    | error left => exact hleave data left
    | crash left => exact hleave data left

/-! ## Trees -/

/-- **A tree over its directory**: two levels at most, of tables that are
files of their level, each open once. -/
structure Store.Shape (env : Env) (s : Store) : Prop where
  tidy : s.disk.Tidy env
  levels : s.tree.levels = [s.tree.level 0] ∨ s.tree.levels = [s.tree.level 0, s.tree.level 1]
  opened : ∀ i, ∀ t ∈ s.tree.level i, t.path.level = i ∧ (t.path, some t.data) ∈ s.disk.files
  nodup : ∀ i, (s.tree.level i).Nodup

/-- The open tables. -/
def Store.sources (s : Store) : List SSTable := s.tree.level 0 ++ s.tree.level 1

theorem Store.Shape.mem_files (h : s.Shape env) {t : SSTable} (ht : t ∈ s.sources) :
    (t.path, some t.data) ∈ s.disk.files := by
  rcases List.mem_append.mp ht with ht | ht
  · exact (h.opened 0 t ht).2
  · exact (h.opened 1 t ht).2

theorem Store.Shape.nodup_sources (h : s.Shape env) :
    (s.sources.map fun t => (t.path, some t.data)).Nodup := by
  have hinj : Function.Injective fun t : SSTable => (t.path, some t.data) := by
    rintro ⟨path, data⟩ ⟨path', data'⟩ heq
    simpa using heq
  refine (List.nodup_map_iff hinj).mpr (List.nodup_append'.mpr ⟨h.nodup 0, h.nodup 1, ?_⟩)
  intro t ht ht'
  have hzero := (h.opened 0 t ht).1
  have hone := (h.opened 1 t ht').1
  omega

theorem Store.Shape.of_eq (h : s.Shape env) (hlevels : s'.tree.levels = s.tree.levels)
    (hfiles : s'.disk.files = s.disk.files) (hclock : s.disk.clock ≤ s'.disk.clock) :
    s'.Shape env := by
  have hlevel : ∀ i, s'.tree.level i = s.tree.level i := fun i => by
    rw [LSMTree.level, hlevels, LSMTree.level]
  refine ⟨h.tidy.of_eq hfiles hclock, ?_, ?_, ?_⟩
  · simp only [hlevels, hlevel]
    exact h.levels
  · simp only [hlevel, hfiles]
    exact h.opened
  · simp only [hlevel]
    exact h.nodup

/-- The same tree over a directory that has gained a file. -/
theorem Store.Shape.setDisk (h : s.Shape env) (hd : s.disk.Gains env d)
    (hlevels : s'.tree.levels = s.tree.levels) (hdisk : s'.disk = d) : s'.Shape env := by
  have hlevel : ∀ i, s'.tree.level i = s.tree.level i := fun i => by
    rw [LSMTree.level, hlevels, LSMTree.level]
  refine ⟨hdisk ▸ hd.tidy, ?_, fun i t ht => ?_, ?_⟩
  · simp only [hlevels, hlevel]
    exact h.levels
  · rw [hlevel] at ht
    rw [hdisk]
    exact ⟨(h.opened i t ht).1, hd.files (h.opened i t ht).2⟩
  · simp only [hlevel]
    exact h.nodup

/-- Every open table is a file. -/
theorem Store.Shape.length_le (h : s.Shape env) :
    (s.tree.level 0).length + (s.tree.level 1).length ≤ s.disk.files.length := by
  have hsub : s.sources.map (fun t => (t.path, some t.data)) ⊆ s.disk.files := by
    intro f hf
    obtain ⟨t, ht, rfl⟩ := List.mem_map.mp hf
    exact h.mem_files ht
  have hle := (h.nodup_sources.subperm hsub).length_le
  rwa [List.length_map, Store.sources, List.length_append] at hle

/-! ## Opening -/

/-- **A tree that is opened** has the complete tables of the directory. -/
theorem shape_newLSMTree (h : d.Tidy env) (maxMemBytes : ℤ) :
    (newLSMTree env maxMemBytes d).Shape env ∧
      ∀ i t, t ∈ (newLSMTree env maxMemBytes d).tree.level i ↔
        (t.path, some t.data) ∈ d.files ∧ t.path.level = i := by
  have hperm := List.perm_insertionSort (fun f g : SSTPath × Option TableData => f.1.le g.1) d.files
  obtain ⟨hlen, hget⟩ := foldl_loadTable (d.files.insertionSort fun f g => f.1.le g.1)
    (fun f hf => h.level_le f (hperm.mem_iff.mp hf)) [[]] (by simp)
  have hnil : ∀ i, ([[]] : List (List SSTable)).getD i [] = [] := by
    intro i
    cases i <;> rfl
  simp only [hnil, List.nil_append] at hget
  have hlevel : ∀ i t, t ∈ (loadLevels d).getD i [] ↔
      (t.path, some t.data) ∈ d.files ∧ t.path.level = i := by
    intro i t
    rw [loadLevels, hget, List.mem_filter, decide_eq_true_iff, (hperm.filterMap _).mem_iff]
    exact and_congr_left fun _ => mem_tables
  have hnodup : ∀ i, ((loadLevels d).getD i []).Nodup := by
    intro i
    rw [loadLevels, hget]
    have hfiles : (d.files.insertionSort fun f g => f.1.le g.1).Nodup :=
      hperm.nodup_iff.mpr h.distinct.of_map
    refine List.Nodup.filter _ (hfiles.filterMap fun f g t hf hg => ?_)
    obtain ⟨data, hdata, rfl⟩ := Option.map_eq_some_iff.mp hf
    obtain ⟨data', hdata', heq⟩ := Option.map_eq_some_iff.mp hg
    obtain ⟨hpath, rfl⟩ := SSTable.mk.inj heq
    exact Prod.ext hpath.symm (hdata.trans hdata'.symm)
  refine ⟨⟨h, ?_, fun i t ht => ?_, hnodup⟩, hlevel⟩
  · show loadLevels d = [(loadLevels d).getD 0 []]
      ∨ loadLevels d = [(loadLevels d).getD 0 [], (loadLevels d).getD 1 []]
    have hlen : 1 ≤ (loadLevels d).length ∧ (loadLevels d).length ≤ 2 := hlen
    generalize loadLevels d = levels at hlen
    rcases levels with _ | ⟨a, _ | ⟨b, _ | ⟨c, rest⟩⟩⟩
    · simp at hlen
    · exact Or.inl rfl
    · exact Or.inr rfl
    · simp only [List.length_cons] at hlen
      omega
  · exact ((hlevel i t).mp ht).symm

/-- **The files are open tables**, four of level 0 and one of level 1 at
most, apart from some for each hindrance. -/
def Store.Room (k : ℕ) (s : Store) : Prop :=
  s.disk.files.length
    ≤ min (s.tree.level 0).length level0CompactThreshold + min (s.tree.level 1).length 1 + 7 * k

/-- Opening a directory again opens no fewer tables. -/
theorem Store.Shape.reopen (h : s.Shape env) {k : ℕ} (hroom : s.Room k)
    (hfiles : d.files = s.disk.files) (hclock : d.clock = s.disk.clock) (maxMemBytes : ℤ) :
    (newLSMTree env maxMemBytes d).Shape env ∧ (newLSMTree env maxMemBytes d).Room k := by
  obtain ⟨hshape, hlevel⟩ := shape_newLSMTree (h.tidy.of_eq hfiles hclock.ge) maxMemBytes
  have hle : ∀ i, (s.tree.level i).length
      ≤ ((newLSMTree env maxMemBytes d).tree.level i).length := fun i => by
    refine ((h.nodup i).subperm fun t ht => ?_).length_le
    obtain ⟨hi, hmem⟩ := h.opened i t ht
    exact (hlevel i t).mpr ⟨hfiles ▸ hmem, hi⟩
  refine ⟨hshape, ?_⟩
  have hzero := hle 0
  have hone := hle 1
  unfold Store.Room at hroom ⊢
  rw [show (newLSMTree env maxMemBytes d).disk.files = s.disk.files from hfiles]
  omega

/-! ## Compaction -/

/-- **An operation gains so many files at most**, wherever it stops. -/
def Exit.Gains (env : Env) (n : ℕ) (s : Store) : Exit → Prop
  | .returned s' _ => s'.Shape env ∧ s'.disk.files.length ≤ s.disk.files.length + n
  | .crashed d => d.Tidy env ∧ d.files.length ≤ s.disk.files.length + n

theorem Exit.Gains.trans {x : Exit} {m n : ℕ} (h : x.Gains env m s')
    (hle : s'.disk.files.length + m ≤ s.disk.files.length + n) : x.Gains env n s := by
  cases x with
  | returned s'' err => exact ⟨h.1, h.2.trans hle⟩
  | crashed d => exact ⟨h.1, h.2.trans hle⟩

/-- Removing all sources leaves the other files. -/
theorem Store.Shape.length_unlink (h : s.Shape env) (path : SSTPath) (data : TableData) :
    ((s.disk.create path (some data)).unlink (s.sources.map (·.path))).files.length
      + s.sources.length ≤ s.disk.files.length + 1 := by
  set rest := s.disk.files.filter (·.1 ∉ s.sources.map (·.path))
  have hrest : (s.sources.map (fun t => (t.path, some t.data)) ++ rest).Nodup := by
    refine List.nodup_append'.mpr ⟨h.nodup_sources, h.tidy.distinct.of_map.filter _, ?_⟩
    intro f hf hf'
    obtain ⟨t, ht, rfl⟩ := List.mem_map.mp hf
    have hnot := of_decide_eq_true (List.mem_filter.mp hf').2
    exact hnot (List.mem_map_of_mem ht)
  have hsub : s.sources.map (fun t => (t.path, some t.data)) ++ rest ⊆ s.disk.files := by
    refine List.append_subset.mpr ⟨fun f hf => ?_, List.filter_sublist.subset⟩
    obtain ⟨t, ht, rfl⟩ := List.mem_map.mp hf
    exact h.mem_files ht
  have hle := (hrest.subperm hsub).length_le
  rw [List.length_append, List.length_map] at hle
  have hfiles : ((s.disk.create path (some data)).unlink (s.sources.map (·.path))).files.length
      ≤ rest.length + 1 := by
    have hold := (List.filter_sublist (p := fun f => decide (f.1 ≠ path)) (l := s.disk.files)).filter
      fun f => decide (f.1 ∉ s.sources.map (·.path))
    rw [Disk.unlink, Disk.create, List.filter_cons]
    split_ifs
    · exact Nat.succ_le_succ hold.length_le
    · exact hold.length_le.trans (Nat.le_succ _)
  omega

theorem Store.Shape.tick (h : s.Shape env) : s.tick.Shape env :=
  h.of_eq rfl rfl (Nat.le_succ _)

/-- Removing files. -/
theorem Disk.Tidy.unlink (h : d.Tidy env) (paths : List SSTPath) : (d.unlink paths).Tidy env where
  level_le f hf := h.level_le f (List.mem_of_mem_filter hf)
  nano_lt f hf := h.nano_lt f (List.mem_of_mem_filter hf)
  distinct := h.distinct.sublist (List.filter_sublist.map _)

/-- **The tree after a compaction** has one table, on level 1. -/
theorem Store.Shape.swapLevels (h : s.Shape env)
    (hlevels : s.tree.levels = [s.tree.level 0, s.tree.level 1]) {path : SSTPath}
    (hlevel : path.level = 1) (hfresh : ∀ f ∈ s.disk.files, f.1.nano < path.nano)
    (hlt : path.nano < env.nano s.disk.clock) (data : TableData) {paths : List SSTPath}
    (hpaths : paths ⊆ s.sources.map (·.path)) {t : LSMTree}
    (ht : t.levels = (s.tree.levels.set 0 []).set (0 + 1) [⟨path, data⟩]) :
    Store.Shape env ⟨t, (s.disk.create path (some data)).unlink paths⟩ ∧
      t.level 0 = [] ∧ t.level 1 = [⟨path, data⟩] := by
  have htl : t.levels = [[], [⟨path, data⟩]] := by
    rw [ht, hlevels]
    rfl
  have hl0 : t.level 0 = [] := by rw [LSMTree.level, htl]; rfl
  have hl1 : t.level 1 = [⟨path, data⟩] := by rw [LSMTree.level, htl]; rfl
  have hpath : path ∉ paths := fun hmem => by
    obtain ⟨u, hu, rfl⟩ := List.mem_map.mp (hpaths hmem)
    exact absurd (hfresh _ (h.mem_files hu)) (lt_irrefl _)
  refine ⟨⟨(h.tidy.create hlevel.le hfresh hlt _).tidy.unlink paths, ?_, ?_, ?_⟩, hl0, hl1⟩
  · exact Or.inr (by simp only [htl, hl0, hl1])
  · intro i u hu
    rcases i with _ | _ | i
    · simp [hl0] at hu
    · obtain rfl : u = ⟨path, data⟩ := by simpa [hl1] using hu
      exact ⟨hlevel, List.mem_filter.mpr ⟨List.mem_cons_self, decide_eq_true hpath⟩⟩
    · rw [LSMTree.level, htl] at hu
      exact absurd hu List.not_mem_nil
  · intro i
    rcases i with _ | _ | i
    · simp [hl0]
    · simp [hl1]
    · rw [LSMTree.level, htl]
      exact List.nodup_nil

/-- **A merge** gains one file at most, and where it succeeds and all its
sources are removed, the merged table stands for them. -/
theorem Store.Shape.mergeSources (h : s.Shape env)
    (hlevels : s.tree.levels = [s.tree.level 0, s.tree.level 1]) (io : FlushOutcome) :
    (mergeSources env io 0 s.sources s).Gains env 1 s ∧
      ∀ s', mergeSources env io 0 s.sources s = .returned s' false →
        (s.sources.all fun t => io.unlinked t.path) = true →
          (s'.tree.level 1).length = 1 ∧
            s'.disk.files.length + s.sources.length ≤ s.disk.files.length + 1 := by
  rw [Metastore.mergeSources]
  split
  · rename_i entries _ _
    set path := s.nextSSTablePath env (0 + 1) with hpath
    have hfresh : ∀ f ∈ s.disk.files, f.1.nano < path.nano := h.tidy.nano_lt
    have hlt : path.nano < env.nano s.tick.disk.clock :=
      env.nano_strictMono (Nat.lt_succ_self _)
    have hlevel : path.level ≤ 1 := le_rfl
    have hwritten := gains_writeSSTable env.codec h.tick.tidy hlevel hfresh hlt entries io.merge
    split <;> rename_i hwrite <;> rw [hwrite] at hwritten
    · exact ⟨⟨hwritten.tidy, hwritten.length_le⟩, by simp⟩
    · exact ⟨⟨h.tick.setDisk hwritten rfl rfl, hwritten.length_le⟩, by simp⟩
    · rename_i newSST d
      obtain ⟨data, rfl⟩ : ∃ data, newSST = ⟨path, data⟩ := ⟨newSST.data, by rw [← hwritten.1]⟩
      obtain ⟨-, rfl⟩ := hwritten
      set paths := (s.sources.map (·.path)).filter io.unlinked with hpaths
      have hle : ((s.tick.disk.create path (some data)).unlink paths).files.length
          ≤ s.disk.files.length + 1 :=
        (List.length_filter_le _ _).trans (h.tick.tidy.create le_rfl hfresh hlt _).length_le
      obtain ⟨hshape, -, hl1⟩ := h.tick.swapLevels hlevels rfl hfresh hlt data
        (List.filter_sublist.subset : paths ⊆ _) (t := s.tick.tree.swapLevels 0 ⟨path, data⟩) rfl
      rw [removeSources]
      split_ifs
      · exact ⟨⟨((h.tick.tidy.create le_rfl hfresh hlt _).tidy.unlink paths), hle⟩, by simp⟩
      · refine ⟨⟨hshape, hle⟩, fun s' hs' hall => ?_⟩
        injection hs' with hs'
        subst hs'
        refine ⟨congrArg List.length hl1, ?_⟩
        have hevery : paths = s.sources.map (·.path) := by
          refine List.filter_eq_self.mpr fun p hp => ?_
          obtain ⟨t, ht, rfl⟩ := List.mem_map.mp hp
          exact List.all_eq_true.mp hall t ht
        rw [← hpaths, hevery]
        exact h.tick.length_unlink path data
  · exact ⟨⟨h, Nat.le_succ _⟩, by simp⟩

theorem Store.Shape.padded_levels (h : s.Shape env) :
    (s.padded 0).tree.levels = [s.tree.level 0, s.tree.level 1] := by
  rcases h.levels with hl | hl
  · have hnil : s.tree.level 1 = [] := by rw [LSMTree.level, hl]; rfl
    rw [hnil, Store.padded, hl]
    rfl
  · rw [Store.padded, hl]
    rfl

theorem Store.Shape.padded (h : s.Shape env) : (s.padded 0).Shape env where
  tidy := h.tidy
  levels := Or.inr (by rw [h.padded_levels, padded_level, padded_level])
  opened i t ht := h.opened i t (padded_level s i ▸ ht)
  nodup i := (padded_level s i).symm ▸ h.nodup i

/-- **A compaction.** -/
theorem Store.Shape.compactLocked (h : s.Shape env) (io : FlushOutcome) :
    (compactLocked env io 0 s).Gains env 1 s ∧
      ∀ s', compactLocked env io 0 s = .returned s' false → s.sources ≠ [] →
        (s.sources.all fun t => io.unlinked t.path) = true →
          (s'.tree.level 1).length = 1 ∧
            s'.disk.files.length + s.sources.length ≤ s.disk.files.length + 1 := by
  have hsources : (s.padded 0).sources = s.sources := by
    rw [Store.sources, padded_level, padded_level, Store.sources]
  have hmerge := h.padded.mergeSources (by rw [h.padded_levels, padded_level, padded_level]) io
  simp only [hsources] at hmerge
  rw [Metastore.compactLocked]
  simp only [padded_level]
  split_ifs with hempty
  · exact ⟨⟨h.padded, Nat.le_succ _⟩, fun s' _ hne => absurd (List.isEmpty_iff.mp hempty) hne⟩
  · exact ⟨hmerge.1, fun s' hs' _ => hmerge.2 s' hs'⟩

/-! ## Flushing -/

/-- Rotating the log leaves the tables alone. -/
theorem rotate_files (call : Call RotateStop) (s : Store) :
    match rotate call s with
    | .returned s' _ => s'.tree.levels = s.tree.levels ∧ s'.disk.files = s.disk.files ∧
        s'.disk.clock = s.disk.clock
    | .crashed d => d.files = s.disk.files ∧ d.clock = s.disk.clock := by
  match call with
  | .ok => exact ⟨rfl, rfl, rfl⟩
  | .error .truncate => exact ⟨rfl, rfl, rfl⟩
  | .error .seek => exact ⟨rfl, rfl, rfl⟩
  | .error .sync => exact ⟨rfl, rfl, rfl⟩
  | .crash .truncate => exact ⟨rfl, rfl⟩
  | .crash .seek => exact ⟨rfl, rfl⟩
  | .crash .sync => exact ⟨rfl, rfl⟩

/-- **The end of a flush**: with five tables on level 0 they are merged, so
that the files are within bounds again. -/
theorem Store.Shape.finishFlush (h : s.Shape env) (io : FlushOutcome) :
    (finishFlush env io s).Gains env 1 s ∧
      ∀ k, s.disk.files.length
          ≤ (s.tree.level 0).length + min (s.tree.level 1).length 1 + 7 * k →
        ∀ s', finishFlush env io s = .returned s' false →
          (s.sources.all fun t => io.unlinked t.path) = true → s'.Room k := by
  have hrotate := rotate_files io.rotate s
  rw [Metastore.finishFlush]
  split <;> rename_i hr <;> rw [hr] at hrotate
  · exact ⟨⟨h.tidy.of_eq hrotate.1 hrotate.2.ge, hrotate.1 ▸ Nat.le_succ _⟩, by simp⟩
  · obtain ⟨hlevels, hfiles, hclock⟩ := hrotate
    exact ⟨⟨h.of_eq hlevels hfiles hclock.ge, hfiles ▸ Nat.le_succ _⟩, by simp⟩
  · rename_i s₁
    obtain ⟨hlevels, hfiles, hclock⟩ := hrotate
    have hshape : s₁.Shape env := h.of_eq hlevels hfiles hclock.ge
    have hlevel : ∀ i, s₁.tree.level i = s.tree.level i := fun i => by
      rw [LSMTree.level, hlevels, LSMTree.level]
    have hsources : s₁.sources = s.sources := by
      rw [Store.sources, hlevel, hlevel, Store.sources]
    split_ifs with hfull
    · obtain ⟨hgains, hmerged⟩ := hshape.compactLocked io
      refine ⟨?_, fun k hle s' hs' hall => ?_⟩
      · exact hgains.trans (by rw [hfiles])
      · have hne : s₁.sources ≠ [] := fun hnil => by
          have hlen := congrArg List.length hnil
          rw [Store.sources, List.length_append, List.length_nil] at hlen
          omega
        obtain ⟨hone, hlen⟩ := hmerged s' hs' hne (hsources ▸ hall)
        rw [hsources, Store.sources, List.length_append, hfiles] at hlen
        unfold Store.Room
        omega
    · refine ⟨⟨hshape, hfiles ▸ Nat.le_succ _⟩, fun k hle s' hs' _ => ?_⟩
      injection hs' with hs'
      subst hs'
      unfold Store.Room
      rw [hlevel] at hfull
      rw [hlevel, hlevel, hfiles]
      omega

/-- **The tree with the flushed table.** -/
theorem Store.Shape.install (h : s.Shape env) {path : SSTPath} (hlevel : path.level = 0)
    (hfresh : ∀ f ∈ s.disk.files, f.1.nano < path.nano)
    (hlt : path.nano < env.nano s.disk.clock) (data : TableData) {t : LSMTree}
    (ht : t.levels = s.tree.levels.set 0 (s.tree.level 0 ++ [⟨path, data⟩])) :
    Store.Shape env ⟨t, s.disk.create path (some data)⟩ ∧
      t.level 0 = s.tree.level 0 ++ [⟨path, data⟩] ∧ t.level 1 = s.tree.level 1 := by
  have hlen : 0 < s.tree.levels.length := by rcases h.levels with hl | hl <;> rw [hl] <;> simp
  have hget : ∀ i, t.level i
      = if i = 0 then s.tree.level 0 ++ [⟨path, data⟩] else s.tree.level i := fun i => by
    simp only [LSMTree.level, ht, List.getD_eq_getElem?_getD, List.getElem?_set]
    rcases i with _ | i
    · simp [hlen]
    · simp
  have hl0 := hget 0
  have hl1 := hget 1
  rw [if_pos rfl] at hl0
  rw [if_neg Nat.one_ne_zero] at hl1
  obtain ⟨htidy, hfiles, -⟩ := h.tidy.create (by omega) hfresh hlt (some data)
  refine ⟨⟨htidy, ?_, fun i u hu => ?_, fun i => ?_⟩, hl0, hl1⟩
  · refine h.levels.imp (fun hl => ?_) fun hl => ?_ <;> simp only [hl0, hl1, ht] <;> rw [hl] <;> rfl
  · rw [hget] at hu
    split_ifs at hu with hi
    · subst hi
      rcases List.mem_append.mp hu with hu | hu
      · exact ⟨(h.opened 0 u hu).1, hfiles (h.opened 0 u hu).2⟩
      · obtain rfl := List.mem_singleton.mp hu
        exact ⟨hlevel, List.mem_cons_self⟩
    · exact ⟨(h.opened i u hu).1, hfiles (h.opened i u hu).2⟩
  · rw [hget]
    split_ifs
    · refine List.nodup_append'.mpr ⟨h.nodup 0, List.nodup_singleton _, fun u hu hu' => ?_⟩
      obtain rfl := List.mem_singleton.mp hu'
      exact absurd (hfresh _ (h.opened 0 _ hu).2) (lt_irrefl _)
    · exact h.nodup i

/-- **A flush** gains two files at most, and where it is not hindered the
files stay within bounds. -/
theorem Store.Shape.flushLocked (h : s.Shape env) (io : FlushOutcome) :
    (flushLocked env io s).Gains env 2 s ∧
      ∀ k, s.Room k → ∀ s', flushLocked env io s = .returned s' false →
        s.removes env io = true → s'.Room k := by
  rw [Metastore.flushLocked]
  split_ifs with hempty
  · refine ⟨⟨h, Nat.le_add_right _ _⟩, fun k hroom s' hs' _ => ?_⟩
    injection hs' with hs'
    exact hs' ▸ hroom
  set path := s.nextSSTablePath env 0 with hpath
  have hfresh : ∀ f ∈ s.disk.files, f.1.nano < path.nano := h.tidy.nano_lt
  have hlt : path.nano < env.nano s.tick.disk.clock := env.nano_strictMono (Nat.lt_succ_self _)
  have hlevel : path.level ≤ 1 := Nat.zero_le 1
  have hwritten := gains_writeSSTable env.codec h.tick.tidy hlevel hfresh hlt
    s.tree.memtable.sortedEntries io.write
  simp only
  split <;> rename_i hwrite <;> rw [hwrite] at hwritten
  · exact ⟨⟨hwritten.tidy, hwritten.length_le.trans (Nat.le_succ _)⟩, by simp⟩
  · exact ⟨⟨h.tick.setDisk hwritten rfl rfl, hwritten.length_le.trans (Nat.le_succ _)⟩, by simp⟩
  · rename_i sst d
    obtain ⟨data, rfl⟩ : ∃ data, sst = ⟨path, data⟩ := ⟨sst.data, by rw [← hwritten.1]⟩
    obtain ⟨-, rfl⟩ := hwritten
    have hle := (h.tick.tidy.create (Nat.zero_le _) hfresh hlt (some data)).length_le
    obtain ⟨hshape, hl0, hl1⟩ := h.tick.install rfl hfresh hlt data
      (t := s.tick.tree.swapMemtable.install ⟨path, data⟩) rfl
    obtain ⟨hgains, hroom'⟩ := hshape.finishFlush io
    have hfiles : s.tick.disk.files.length = s.disk.files.length := rfl
    have hlevel : ∀ i, s.tick.tree.level i = s.tree.level i := fun _ => rfl
    refine ⟨hgains.trans (Nat.succ_le_succ hle), fun k hroom s' hs' hremoves => ?_⟩
    refine hroom' k ?_ s' hs' ?_
    · unfold Store.Room at hroom
      rw [hl0, hl1, List.length_append, List.length_singleton, hlevel, hlevel]
      show (s.tick.disk.create path (some data)).files.length ≤ _
      omega
    · rw [Store.removes, Bool.and_eq_true, List.all_append, Bool.and_eq_true] at hremoves
      rw [Store.sources, hl0, hl1, hlevel, hlevel]
      simp [hremoves.1, hremoves.2.1, hremoves.2.2, hpath]

/-! ## Histories -/

/-- **A write.** -/
theorem Store.Shape.write (h : s.Shape env) (io : FlushOutcome) (entry : StatEntry) :
    (write env io s entry).Gains env 2 s ∧
      ∀ k, s.Room k → ∀ s', write env io s entry = .returned s' false →
        s.removes env io = true → s'.Room k := by
  rw [Metastore.write]
  cases env.codec.marshal entry with
  | none => exact ⟨⟨h, Nat.le_add_right _ _⟩, by simp⟩
  | some val =>
    simp only [writeLocked]
    have happly : (s.applyEntry env entry val).Shape env := h.of_eq rfl rfl le_rfl
    split_ifs
    · obtain ⟨hgains, hroom⟩ := happly.flushLocked io
      exact ⟨hgains.trans le_rfl, hroom⟩
    · refine ⟨⟨happly, Nat.le_add_right _ _⟩, fun k hroom s' hs' _ => ?_⟩
      injection hs' with hs'
      subst hs'
      exact hroom

/-- **One action.** -/
theorem Store.Shape.action (h : s.Shape env) (a : Action) :
    (a.exit env s).1.Gains env 2 s ∧
      ∀ k, s.Room k → a.hindered env s = false →
        match (a.exit env s).1 with
        | .returned s' _ => s'.Room k
        | .crashed d => d.files = s.disk.files ∧ d.clock = s.disk.clock := by
  -- an operation that may flush and is not hindered returns, without an error
  have hreturned : ∀ {x : Exit} {io : FlushOutcome}, x.Gains env 2 s ∧
      (∀ k, s.Room k → ∀ s', x = .returned s' false → s.removes env io = true → s'.Room k) →
      x.Gains env 2 s ∧ ∀ k, s.Room k → (x.fails || !s.removes env io) = false →
        match x with
        | .returned s' _ => s'.Room k
        | .crashed d => d.files = s.disk.files ∧ d.clock = s.disk.clock := by
    rintro x io ⟨hgains, hroom⟩
    refine ⟨hgains, fun k hk hclear => ?_⟩
    rw [Bool.or_eq_false_iff, Bool.not_eq_false'] at hclear
    cases x with
    | returned s' err =>
      obtain rfl : err = false := hclear.1
      exact hroom k hk s' rfl hclear.2
    | crashed d => exact absurd hclear.1 Bool.true_eq_false_eq_False
  cases a with
  | write e io => exact hreturned (h.write io e)
  | flush io => exact hreturned (h.flushLocked io)
  | read key =>
    obtain ⟨cache, hread⟩ := read_eq s.tree env.codec key
    have hlevels : (s.tree.read env.codec key).2.levels = s.tree.levels := by rw [hread]
    refine ⟨⟨h.of_eq hlevels rfl le_rfl, Nat.le_add_right _ _⟩, fun k hroom _ => ?_⟩
    show Store.Room k { s with tree := (s.tree.read env.codec key).2 }
    rw [hread]
    exact hroom
  | crash cut => exact ⟨⟨h.tidy, Nat.le_add_right _ _⟩, fun _ _ _ => ⟨rfl, rfl⟩⟩
  | crashWrite e cut =>
    rw [Action.exit]
    cases env.codec.marshal e with
    | none => exact ⟨⟨h.tidy, Nat.le_add_right _ _⟩, fun _ _ _ => ⟨rfl, rfl⟩⟩
    | some val =>
      exact ⟨⟨h.tidy.of_eq rfl le_rfl, Nat.le_add_right _ _⟩, fun _ _ _ => ⟨rfl, rfl⟩⟩

/-- **One action of a history**: a hindrance leaves room for seven files. -/
theorem room_step {h : History} (hshape : h.store.Shape env) {k : ℕ} (hroom : h.store.Room k)
    (maxMemBytes : ℤ) (a : Action) :
    (h.step env maxMemBytes a).store.Shape env ∧
      (h.step env maxMemBytes a).store.Room (k + (a.hindered env h.store).toNat) := by
  obtain ⟨hgains, hclear⟩ := hshape.action a
  have hmany : ∀ s' : Store, s'.disk.files.length ≤ h.store.disk.files.length + 2 →
      s'.Room (k + 1) := fun s' hle => by
    unfold Store.Room level0CompactThreshold at hroom
    unfold Store.Room
    omega
  unfold History.step
  rcases hx : a.exit env h.store with ⟨⟨s', err⟩ | d, cut⟩ <;> rw [hx] at hgains hclear
  · refine ⟨hgains.1, ?_⟩
    cases hhindered : a.hindered env h.store with
    | true => exact hmany s' hgains.2
    | false => exact hclear k hroom hhindered
  · show Store.Shape env (newLSMTree env maxMemBytes (d.survive cut)) ∧
      Store.Room _ (newLSMTree env maxMemBytes (d.survive cut))
    cases hhindered : a.hindered env h.store with
    | true =>
      have htidy : (d.survive cut).Tidy env := hgains.1.of_eq rfl le_rfl
      exact ⟨(shape_newLSMTree htidy maxMemBytes).1, hmany _ hgains.2⟩
    | false =>
      obtain ⟨hfiles, hclock⟩ := hclear k hroom hhindered
      exact hshape.reopen (d := d.survive cut) hroom hfiles hclock maxMemBytes

theorem shape_init (env : Env) (maxMemBytes : ℤ) :
    (History.init env maxMemBytes).store.Shape env ∧ (History.init env maxMemBytes).store.Room 0 := by
  have htidy : Disk.Tidy env .empty :=
    ⟨fun _ hf => absurd hf List.not_mem_nil, fun _ hf => absurd hf List.not_mem_nil,
      List.nodup_nil⟩
  exact ⟨(shape_newLSMTree htidy maxMemBytes).1, Nat.zero_le _⟩

/-- **Few files are left over.** In every history, whatever fails and
wherever the machine stops, the tables that a tree has open are files of the
directory, of levels 0 and 1, each open once; and the directory has no
more files than these, four of level 0 and one of level 1 counted at most,
but for seven for each action that was hindered. -/
theorem files_bounded (env : Env) (maxMemBytes : ℤ) (acts : List Action) :
    let s := (history env maxMemBytes acts).store
    (∀ i, ∀ t ∈ s.tree.level i, (t.path, some t.data) ∈ s.disk.files ∧ t.path.level = i ∧ i ≤ 1) ∧
      (∀ i, (s.tree.level i).Nodup) ∧
      (s.tree.level 0).length + (s.tree.level 1).length ≤ s.disk.files.length ∧
      s.disk.files.length
        ≤ min (s.tree.level 0).length level0CompactThreshold + min (s.tree.level 1).length 1
          + 7 * hindrances env maxMemBytes (.init env maxMemBytes) acts := by
  have hrun : ∀ (acts : List Action) (h : History) (k : ℕ), h.store.Shape env → h.store.Room k →
      (acts.foldl (History.step env maxMemBytes) h).store.Shape env ∧
        (acts.foldl (History.step env maxMemBytes) h).store.Room
          (k + hindrances env maxMemBytes h acts) := by
    intro acts
    induction acts with
    | nil => exact fun _ _ hshape hroom => ⟨hshape, hroom⟩
    | cons a acts ih =>
      intro h k hshape hroom
      obtain ⟨hshape', hroom'⟩ := room_step hshape hroom maxMemBytes a
      rw [hindrances, ← Nat.add_assoc]
      exact ih _ _ hshape' hroom'
  obtain ⟨hshape, hroom⟩ := hrun acts _ 0 (shape_init env maxMemBytes).1
    (shape_init env maxMemBytes).2
  rw [Nat.zero_add] at hroom
  refine ⟨fun i t ht => ?_, hshape.nodup, hshape.length_le, hroom⟩
  obtain ⟨hlevel, hmem⟩ := hshape.opened i t ht
  exact ⟨hmem, hlevel, hlevel ▸ hshape.tidy.level_le _ hmem⟩

end Metastore

end TftAnalytics

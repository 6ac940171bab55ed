import TftAnalytics.Metastore.Helpers.Table
import TftAnalytics.Metastore.Helpers.Cache
import TftAnalytics.Metastore.Helpers.Wal
/-!
# Metastore — what holds of a tree at every step

Helper layer. `top` is the largest rank the tree holds for a key, and
`Inv` what ties the memtable, the tables, the cache and the files of a
tree together so that a read returns an entry of that rank. `Recoverable`
is the part that concerns the directory alone: a directory from which a
tree can be opened that holds exactly these ranks.
-/

namespace TftAnalytics

namespace Metastore

variable {ρ : Type*} [LinearOrder ρ] (R : Ranking ρ) (env : Env)

/-- The complete tables of a directory. -/
def Disk.tables (d : Disk) : List SSTable :=
  d.files.filterMap fun f => f.2.map fun data => ⟨f.1, data⟩

/-- The versions of a key that the tree holds. -/
def LSMTree.versions (c : Codec) (t : LSMTree) (key : GoString) : List StatEntry :=
  (t.memtable.get key).toList ++ hits c key (t.level 0 ++ t.level 1)

/-- **The largest rank the tree holds for a key.** -/
def LSMTree.top (c : Codec) (t : LSMTree) (key : GoString) : WithBot ρ :=
  topRank R.rank (t.versions c key)

/-- **A table that may come into a directory**: well formed, with no larger
rank, and on level 1 only above the tables there. -/
structure SSTable.Fits (d : Disk) (top : GoString → WithBot ρ) (t : SSTable) : Prop where
  ok : t.Ok R env.codec
  le_top : ∀ key, optRank R.rank (t.get env.codec key) ≤ top key
  covers : t.path.level = 1 → ∀ t' ∈ d.tables, t'.path.level = 1 → t.Covers R env.codec t'

/-- **The table files of a directory**, against the ranks a tree holds:
names are distinct, complete tables are well formed and hold nothing
larger, and of the tables of level 1 a later one covers an earlier one. -/
structure Files (d : Disk) (top : GoString → WithBot ρ) : Prop where
  level_le : ∀ f ∈ d.files, f.1.level ≤ 1
  nano_lt : ∀ f ∈ d.files, f.1.nano < env.nano d.clock
  distinct : (d.files.map fun f => f.1.nano).Nodup
  ok : ∀ t ∈ d.tables, t.Ok R env.codec
  le_top : ∀ t ∈ d.tables, ∀ key, optRank R.rank (t.get env.codec key) ≤ top key
  chain : ∀ t ∈ d.tables, ∀ t' ∈ d.tables, t.path.level = 1 → t'.path.level = 1 →
    t.path.nano < t'.path.nano → t'.Covers R env.codec t

/-- **The log of a directory**, against the ranks a tree holds: what of its
data can be decoded are storable entries of no larger rank, and what is
not synced is at most the last commit marker. -/
structure Log (c : Codec) (d : Disk) (top : GoString → WithBot ρ) : Prop where
  synced_le : d.synced ≤ d.wal.length
  tail : d.synced = d.wal.length ∨
    Whole (d.wal.take d.synced) ∧ ∃ seq, d.wal.drop d.synced = commitRecord seq
  entries : ∀ r ∈ logged d.wal, ∀ e, c.unmarshal r.2 = some e →
    e ∈ Storable R c r.1 ∧ ↑(R.rank e) ≤ top r.1

/-- **The invariant of a tree and its directory.** -/
structure Inv (s : Store) : Prop where
  files : Files R env s.disk (s.tree.top R env.codec)
  immutable : s.tree.immutable = none
  levels : s.tree.levels = [s.tree.level 0] ∨ s.tree.levels = [s.tree.level 0, s.tree.level 1]
  mem : s.tree.memtable.Ok R env.codec
  opened : ∀ i, ∀ t ∈ s.tree.level i, t.path.level = i ∧ t ∈ s.disk.tables
  sorted : (s.tree.level 1).Pairwise fun t t' => t.path.nano < t'.path.nano
  below : ∀ t ∈ s.disk.tables, t.path.level = 1 → ∀ key,
    optRank R.rank (t.get env.codec key)
      ≤ topRank R.rank (hits env.codec key (s.tree.level 0 ++ s.tree.level 1))
  cache_wf : s.tree.blockCache.Wf
  cache : ∀ el ∈ s.tree.blockCache.ll, ∃ e ∈ Storable R env.codec el.key,
    env.codec.unmarshal el.value = some e ∧ ↑(R.rank e) = s.tree.top R env.codec el.key

/-- **The log stands for the memtable**: its data are in the tree, and
what the memtable holds is in the log. -/
structure Logged (s : Store) : Prop where
  log : Log R env.codec s.disk (s.tree.top R env.codec)
  mem : ∀ key, ∀ e ∈ s.tree.memtable.get key,
    ∃ r ∈ logged s.disk.wal, r.1 = key ∧ env.codec.unmarshal r.2 = some e

/-- **A directory that holds exactly these ranks**, between its tables and
its log. -/
structure Recoverable (d : Disk) (top : GoString → WithBot ρ) : Prop where
  files : Files R env d top
  log : Log R env.codec d top
  complete : ∀ key x, (∀ t ∈ d.tables, optRank R.rank (t.get env.codec key) ≤ x) →
    (∀ r ∈ logged d.wal, r.1 = key → ∀ e, env.codec.unmarshal r.2 = some e → ↑(R.rank e) ≤ x) →
    top key ≤ x

variable {R env}

/-! ## Ranks -/

theorem LSMTree.top_eq (c : Codec) (t : LSMTree) (key : GoString) :
    t.top R c key = max (optRank R.rank (t.memtable.get key))
      (topRank R.rank (hits c key (t.level 0 ++ t.level 1))) := by
  rw [LSMTree.top, LSMTree.versions, topRank_append, topRank_toList]

/-- What the memtable holds is part of what the tree holds. -/
theorem optRank_memtable_le_top (c : Codec) (t : LSMTree) (key : GoString) :
    optRank R.rank (t.memtable.get key) ≤ t.top R c key := by
  rw [LSMTree.top_eq]
  exact le_max_left _ _

/-- And so is what the tables hold. -/
theorem topRank_hits_le_top (c : Codec) (t : LSMTree) (key : GoString) :
    topRank R.rank (hits c key (t.level 0 ++ t.level 1)) ≤ t.top R c key := by
  rw [LSMTree.top_eq]
  exact le_max_right _ _

/-- **A bound on the memtable and on the tables** bounds the tree. -/
theorem LSMTree.top_le_iff {c : Codec} {t : LSMTree} {key : GoString} {x : WithBot ρ} :
    t.top R c key ≤ x ↔ (∀ e ∈ t.memtable.get key, ↑(R.rank e) ≤ x) ∧
      ∀ u ∈ t.level 0 ++ t.level 1, optRank R.rank (u.get c key) ≤ x := by
  rw [LSMTree.top_eq, max_le_iff, topRank_hits_le]
  refine and_congr_left fun _ => ?_
  cases t.memtable.get key <;> simp

/-! ## Files -/

theorem mem_tables {d : Disk} {t : SSTable} : t ∈ d.tables ↔ (t.path, some t.data) ∈ d.files := by
  rw [Disk.tables, List.mem_filterMap]
  constructor
  · rintro ⟨⟨path, content⟩, hf, ht⟩
    obtain ⟨data, rfl, rfl⟩ := Option.map_eq_some_iff.mp ht
    exact hf
  · exact fun hf => ⟨_, hf, rfl⟩

/-- The tables of a directory are known by their stamps. -/
theorem Files.eq_of_nano {d : Disk} {top : GoString → WithBot ρ} (h : Files R env d top)
    {t t' : SSTable} (ht : t ∈ d.tables) (ht' : t' ∈ d.tables)
    (hnano : t.path.nano = t'.path.nano) : t = t' := by
  have heq := List.inj_on_of_nodup_map h.distinct (mem_tables.mp ht) (mem_tables.mp ht') hnano
  simp only [Prod.mk.injEq, Option.some.injEq] at heq
  cases t
  cases t'
  simpa using heq

/-- The files matter, and the clock; the log does not. -/
theorem Files.of_eq {d d' : Disk} {top : GoString → WithBot ρ} (h : Files R env d top)
    (hfiles : d'.files = d.files) (hclock : d.clock ≤ d'.clock) : Files R env d' top := by
  have htables : d'.tables = d.tables := by rw [Disk.tables, Disk.tables, hfiles]
  exact
    { level_le := by simpa only [hfiles] using h.level_le
      nano_lt := by
        simp only [hfiles]
        exact fun f hf => (h.nano_lt f hf).trans_le (env.nano_strictMono.monotone hclock)
      distinct := by simpa only [hfiles] using h.distinct
      ok := by simpa only [htables] using h.ok
      le_top := by simpa only [htables] using h.le_top
      chain := by simpa only [htables] using h.chain }

theorem Files.mono {d : Disk} {top top' : GoString → WithBot ρ} (h : Files R env d top)
    (hle : ∀ key, top key ≤ top' key) : Files R env d top' :=
  { h with le_top := fun t ht key => (h.le_top t ht key).trans (hle key) }

theorem mem_tables_create {d : Disk} {path : SSTPath} {content : Option TableData} {t : SSTable}
    (h : t ∈ (d.create path content).tables) :
    content = some t.data ∧ t.path = path ∨ t ∈ d.tables := by
  rw [mem_tables, Disk.create] at h
  rcases List.mem_cons.mp h with hnew | hold
  · rw [Prod.mk.injEq] at hnew
    exact Or.inl ⟨hnew.2.symm, hnew.1⟩
  · exact Or.inr (mem_tables.mpr (List.mem_of_mem_filter hold))

/-- **Creating a file** under a fresh stamp: a complete table must hold
nothing larger, and on level 1 cover the tables there. -/
theorem Files.create {d : Disk} {top : GoString → WithBot ρ} (h : Files R env d top)
    {path : SSTPath} (hlevel : path.level ≤ 1) (hfresh : ∀ f ∈ d.files, f.1.nano < path.nano)
    (hlt : path.nano < env.nano d.clock) {content : Option TableData}
    (hcontent : ∀ data, content = some data → (SSTable.mk path data).Fits R env d top) :
    Files R env (d.create path content) top where
  level_le := by
    intro f hf
    rcases List.mem_cons.mp hf with rfl | hold
    · exact hlevel
    · exact h.level_le f (List.mem_of_mem_filter hold)
  nano_lt := by
    intro f hf
    rcases List.mem_cons.mp hf with rfl | hold
    · exact hlt
    · exact h.nano_lt f (List.mem_of_mem_filter hold)
  distinct := by
    simp only [Disk.create, List.map_cons, List.nodup_cons, List.mem_map, not_exists, not_and]
    exact ⟨fun f hf => (hfresh f (List.mem_of_mem_filter hf)).ne,
      h.distinct.sublist (List.filter_sublist.map _)⟩
  ok := by
    intro t ht
    rcases mem_tables_create ht with ⟨hdata, rfl⟩ | hold
    · exact (hcontent t.data hdata).ok
    · exact h.ok t hold
  le_top := by
    intro t ht
    rcases mem_tables_create ht with ⟨hdata, rfl⟩ | hold
    · exact (hcontent t.data hdata).le_top
    · exact h.le_top t hold
  chain := by
    intro t ht t' ht' hl hl' hnano
    have hold_lt : ∀ u ∈ d.tables, u.path.nano < path.nano :=
      fun u hu => hfresh _ (mem_tables.mp hu)
    -- the new file has the largest stamp, so only it can cover the others
    rcases mem_tables_create ht' with ⟨hdata', rfl⟩ | hold'
    · rcases mem_tables_create ht with ⟨-, hpath⟩ | hold
      · rw [hpath] at hnano
        exact absurd hnano (lt_irrefl _)
      · exact (hcontent t'.data hdata').covers hl' t hold hl
    · rcases mem_tables_create ht with ⟨-, rfl⟩ | hold
      · exact absurd hnano (hold_lt t' hold').asymm
      · exact h.chain t hold t' hold' hl hl' hnano

theorem mem_tables_unlink {d : Disk} {paths : List SSTPath} {t : SSTable} :
    t ∈ (d.unlink paths).tables ↔ t ∈ d.tables ∧ t.path ∉ paths := by
  simp [mem_tables, Disk.unlink, List.mem_filter]

/-- **Removing files** keeps what holds of the rest. -/
theorem Files.unlink {d : Disk} {top : GoString → WithBot ρ} (h : Files R env d top)
    (paths : List SSTPath) : Files R env (d.unlink paths) top where
  level_le := fun f hf => h.level_le f (List.mem_of_mem_filter hf)
  nano_lt := fun f hf => h.nano_lt f (List.mem_of_mem_filter hf)
  distinct := h.distinct.sublist (List.filter_sublist.map _)
  ok := fun t ht => h.ok t (mem_tables_unlink.mp ht).1
  le_top := fun t ht => h.le_top t (mem_tables_unlink.mp ht).1
  chain := fun t ht t' ht' =>
    h.chain t (mem_tables_unlink.mp ht).1 t' (mem_tables_unlink.mp ht').1

/-! ## Reads -/

/-- On the top level every hit is resolved against. -/
theorem readTables_zero (c : Codec) (key : GoString) (ts : List SSTable)
    (best : Option StatEntry) :
    readTables c key 0 ts best
      = (hits c key ts).foldl (fun o e => pickNewer o (some e)) best := by
  induction ts generalizing best with
  | nil => rfl
  | cons t ts ih =>
    cases hget : t.get c key with
    | none => simp [readTables, hits, hget, ih]
    | some e => simp [readTables, hits, hget, ih]

/-- Below it the first hit suffices. -/
theorem readTables_succ (c : Codec) (key : GoString) (lvl : ℕ) (ts : List SSTable)
    (best : Option StatEntry) :
    readTables c key (lvl + 1) ts best
      = (hits c key ts).head?.elim best fun e => pickNewer best (some e) := by
  induction ts with
  | nil => rfl
  | cons t ts ih =>
    cases hget : t.get c key with
    | none => simp [readTables, hits, hget, ih]
    | some e => simp [readTables, hits, hget]

/-- Where later tables cover earlier ones, the latest hit has the largest
rank. -/
theorem optRank_head_hits {c : Codec} {key : GoString} {ts : List SSTable}
    (h : ts.Pairwise fun t t' => t.Covers R c t') :
    optRank R.rank (hits c key ts).head? = topRank R.rank (hits c key ts) := by
  induction ts with
  | nil => rfl
  | cons t ts ih =>
    obtain ⟨hhead, htail⟩ := List.pairwise_cons.mp h
    have hle : topRank R.rank (hits c key ts) ≤ optRank R.rank (t.get c key) :=
      topRank_hits_le.mpr fun t' ht' => hhead t' ht' key
    cases hget : t.get c key with
    | none => simpa [hits, hget] using ih htail
    | some e =>
      rw [hget, optRank_some] at hle
      have hcons : hits c key (t :: ts) = e :: hits c key ts := by simp [hits, hget]
      rw [hcons, List.head?_cons, optRank_some, topRank_cons, max_eq_left hle]

theorem topRank_reverse (rank : StatEntry → ρ) (l : List StatEntry) :
    topRank rank l.reverse = topRank rank l := topRank_congr fun _ => List.mem_reverse

theorem hits_reverse (c : Codec) (key : GoString) (ts : List SSTable) :
    hits c key ts.reverse = (hits c key ts).reverse := List.filterMap_reverse

/-- The tables a tree has open are well formed. -/
theorem Inv.table_ok {s : Store} (h : Inv R env s) {i : ℕ} {t : SSTable} (ht : t ∈ s.tree.level i) :
    t.Ok R env.codec := h.files.ok t (h.opened i t ht).2

/-- **A read under the lock finds an entry of the largest rank.** -/
theorem Inv.optRank_lookup {s : Store} (h : Inv R env s) (key : GoString) :
    (∀ e ∈ s.tree.lookup env.codec key, e ∈ Storable R env.codec key) ∧
      optRank R.rank (s.tree.lookup env.codec key) = s.tree.top R env.codec key := by
  -- the levels one by one: the memtable and level 0 by rank, level 1 by its newest table
  have hC := choosesMax_storable (R := R) (c := env.codec) key
  have hst : ∀ i, ∀ e ∈ hits env.codec key (s.tree.level i).reverse,
      e ∈ Storable R env.codec key :=
    fun i => hits_storable fun t ht => h.table_ok (List.mem_reverse.mp ht)
  set best₀ := readTables env.codec key 0 (s.tree.level 0).reverse (s.tree.memtable.get key)
    with hbest₀
  have hmem₀ : ∀ e ∈ best₀, e ∈ Storable R env.codec key := by
    rw [hbest₀, readTables_zero, pickNewer_eq_pickOption]
    exact hC.mem_foldl (hst 0) (h.mem key)
  have hrank₀ : optRank R.rank best₀ = max (optRank R.rank (s.tree.memtable.get key))
      (topRank R.rank (hits env.codec key (s.tree.level 0))) := by
    rw [hbest₀, readTables_zero, pickNewer_eq_pickOption, hC.optRank_foldl (hst 0) (h.mem key),
      hits_reverse, topRank_reverse]
  -- each table of level 1 covers those before it
  have hchain : ((s.tree.level 1).reverse).Pairwise fun t t' => t.Covers R env.codec t' := by
    rw [List.pairwise_reverse]
    refine h.sorted.imp_of_mem fun {t t'} ht ht' hnano => ?_
    obtain ⟨hl, hd⟩ := h.opened 1 t ht
    obtain ⟨hl', hd'⟩ := h.opened 1 t' ht'
    exact h.files.chain t hd t' hd' hl hl' hnano
  -- so the first hit is enough
  set best₁ := readTables env.codec key 1 (s.tree.level 1).reverse best₀ with hbest₁
  have hbest₁' : best₁ = pickNewer best₀ (hits env.codec key (s.tree.level 1).reverse).head? := by
    rw [hbest₁, readTables_succ]
    cases (hits env.codec key (s.tree.level 1).reverse).head? with
    | none => cases best₀ <;> rfl
    | some e => rfl
  have hhead : ∀ e ∈ (hits env.codec key (s.tree.level 1).reverse).head?,
      e ∈ Storable R env.codec key := fun e he => hst 1 e (List.mem_of_mem_head? he)
  have hlookup : s.tree.lookup env.codec key = best₁ := by
    have hstart : pickNewer (pickNewer none (s.tree.memtable.get key))
        (s.tree.immutable.bind fun m => m.get key) = s.tree.memtable.get key := by
      rw [h.immutable]
      cases s.tree.memtable.get key <;> rfl
    rw [LSMTree.lookup, hstart]
    rcases h.levels with hl | hl
    · have hnil : s.tree.level 1 = [] := by rw [LSMTree.level, hl]; rfl
      rw [hl]
      simp only [readLevels, hbest₁, hnil, List.reverse_nil, readTables, hbest₀]
    · rw [hl]
      simp only [readLevels, hbest₁, hbest₀, Nat.zero_add]
  rw [hlookup, hbest₁', pickNewer_eq_pickOption]
  refine ⟨hC.mem_pickOption hmem₀ hhead, ?_⟩
  rw [hC.optRank_pickOption hmem₀ hhead, optRank_head_hits hchain, hrank₀, hits_reverse,
    topRank_reverse, LSMTree.top_eq, hits_append, topRank_append, max_assoc]

/-- The cache can be replaced by any that holds entries of largest rank. -/
theorem Inv.setCache {s : Store} (h : Inv R env s) {cache : LRUCache} (hwf : cache.Wf)
    (hcache : ∀ el ∈ cache.ll, ∃ e ∈ Storable R env.codec el.key,
      env.codec.unmarshal el.value = some e ∧ ↑(R.rank e) = s.tree.top R env.codec el.key) :
    Inv R env { s with tree := { s.tree with blockCache := cache } } :=
  { files := h.files, immutable := h.immutable, levels := h.levels, mem := h.mem,
    opened := h.opened, sorted := h.sorted, below := h.below, cache_wf := hwf, cache := hcache }

/-- **The locked section of a read** returns an entry of the largest rank
and keeps the invariant. -/
theorem Inv.readLocked {s : Store} (h : Inv R env s) (key : GoString) :
    (∀ e ∈ (s.tree.readLocked env.codec key).1, e ∈ Storable R env.codec key) ∧
      optRank R.rank (s.tree.readLocked env.codec key).1 = s.tree.top R env.codec key ∧
      Inv R env { s with tree := (s.tree.readLocked env.codec key).2 } ∧
      (s.tree.readLocked env.codec key).2.top R env.codec = s.tree.top R env.codec := by
  obtain ⟨hst, hrank⟩ := h.optRank_lookup key
  unfold LSMTree.readLocked
  cases hl : s.tree.lookup env.codec key with
  | none =>
    rw [hl] at hrank
    exact ⟨by simp, hrank, h, rfl⟩
  | some best =>
    have hbest : best ∈ Storable R env.codec key := hst best hl
    rw [hl, optRank_some] at hrank
    obtain ⟨-, -, val, hval⟩ := hbest
    simp only [hval]
    refine ⟨by simpa using hst best hl, hrank, ?_, rfl⟩
    refine h.setCache (h.cache_wf.put key val) fun el hel => ?_
    rcases h.cache_wf.mem_put hel with ⟨hkey, hvalue⟩ | ⟨-, el', hel', hkey, hvalue⟩
    · rw [hkey, hvalue]
      exact ⟨best, hst best hl, env.codec.unmarshal_marshal hval, hrank⟩
    · rw [← hkey, ← hvalue]
      exact h.cache el' hel'

/-- **A hit in the cache** is an entry of the largest rank, too. -/
theorem Inv.readCache {s : Store} (h : Inv R env s) (key : GoString) :
    (∀ e ∈ (s.tree.readCache env.codec key).1,
        e ∈ Storable R env.codec key ∧ ↑(R.rank e) = s.tree.top R env.codec key) ∧
      Inv R env { s with tree := (s.tree.readCache env.codec key).2 } ∧
      (s.tree.readCache env.codec key).2.top R env.codec = s.tree.top R env.codec := by
  refine ⟨fun e he => ?_, h.setCache (h.cache_wf.get key) fun el hel => ?_, rfl⟩
  · obtain ⟨val, hval, hdec⟩ := Option.bind_eq_some_iff.mp he
    obtain ⟨el, hel, rfl, rfl⟩ := h.cache_wf.get_some hval
    obtain ⟨e', he', hdec', hrank⟩ := h.cache el hel
    rw [hdec, Option.some.injEq] at hdec'
    subst hdec'
    exact ⟨he', hrank⟩
  · exact h.cache el (h.cache_wf.mem_get.mp hel)

/-- **A read changes the block cache**, and nothing else of the tree. -/
theorem read_eq (t : LSMTree) (c : Codec) (key : GoString) :
    ∃ cache, (t.read c key).2 = { t with blockCache := cache } := by
  have hlocked : ∀ t : LSMTree,
      ∃ cache, (t.readLocked c key).2 = { t with blockCache := cache } := by
    intro t
    unfold LSMTree.readLocked
    split
    · exact ⟨_, rfl⟩
    · split
      · exact ⟨_, rfl⟩
      · exact ⟨_, rfl⟩
  unfold LSMTree.read LSMTree.readCache
  split
  · rename_i e t' hcache
    obtain ⟨-, rfl⟩ := Prod.mk.inj hcache
    exact ⟨_, rfl⟩
  · rename_i t' hcache
    obtain ⟨-, rfl⟩ := Prod.mk.inj hcache
    exact hlocked _

/-- So it leaves the memtable alone. -/
theorem read_memtable (t : LSMTree) (c : Codec) (key : GoString) :
    (t.read c key).2.memtable = t.memtable := by
  obtain ⟨cache, hread⟩ := read_eq t c key
  rw [hread]

/-- **A read returns an entry of the largest rank**, wherever it comes
from. -/
theorem Inv.read {s : Store} (h : Inv R env s) (key : GoString) :
    (∀ e ∈ (s.tree.read env.codec key).1, e ∈ Storable R env.codec key) ∧
      optRank R.rank (s.tree.read env.codec key).1 = s.tree.top R env.codec key ∧
      Inv R env { s with tree := (s.tree.read env.codec key).2 } ∧
      (s.tree.read env.codec key).2.top R env.codec = s.tree.top R env.codec := by
  obtain ⟨hhit, hinv, htop⟩ := h.readCache key
  unfold LSMTree.read
  cases hc : s.tree.readCache env.codec key with
  | mk o t =>
    rw [hc] at hhit hinv htop
    cases o with
    | some e =>
      obtain ⟨hst, hrank⟩ := hhit e rfl
      exact ⟨by simpa using hst, by simpa using hrank, hinv, htop⟩
    | none =>
      obtain ⟨hst, hrank, hinv', htop'⟩ := hinv.readLocked key
      exact ⟨hst, hrank.trans (congrFun htop key), hinv', htop'.trans htop⟩

end Metastore

end TftAnalytics

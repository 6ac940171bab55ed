import TftAnalytics.Metastore.Helpers.History
/-!
# Metastore — convergence of replicas

Two trees that apply the same entries in different orders, with flushes at
different points, need not agree. `pickNewer` breaks a tie of clocks and
sample sizes by argument order, and the order of arguments is the order of
arrival. The trees agree exactly when of the entries of each key one wins
against every other, whichever way round.
-/

namespace TftAnalytics

namespace Metastore

/-- What a replica does when nothing fails. -/
inductive Op where
  | write (entry : StatEntry)
  | flush
  | read (key : GoString)

/-- The action it is. -/
def Op.action : Op → Action
  | .write e => .write e .ok
  | .flush => .flush .ok
  | .read key => .read key

/-- The entries that are written, in order. -/
def written (ops : List Op) : List StatEntry :=
  ops.filterMap fun
    | .write e => some e
    | _ => none

/-- `ops` applies exactly the entries of `S`, each once, in some order. -/
def Applies (ops : List Op) (S : Finset StatEntry) : Prop :=
  (written ops).Nodup ∧ (written ops).toFinset = S

instance (ops : List Op) (S : Finset StatEntry) : Decidable (Applies ops S) :=
  inferInstanceAs (Decidable (_ ∧ _))

/-- A replica that started from an empty directory. -/
def replica (env : Env) (maxMemBytes : ℤ) (ops : List Op) : History :=
  history env maxMemBytes (ops.map Op.action)

/-- **Replicas converge on `S`**: any two that apply it answer every read
alike. -/
def Converges (env : Env) (S : Finset StatEntry) : Prop :=
  ∀ m₁ m₂ ops₁ ops₂, Applies ops₁ S → Applies ops₂ S → ∀ key,
    (replica env m₁ ops₁).read env key = (replica env m₂ ops₂).read env key

/-- **Every conflict in `S` is decided**: of the entries of a key one beats
all others. -/
def Decided (S : Finset StatEntry) : Prop :=
  ∀ e ∈ S, ∃ w ∈ S, entryKey w = entryKey e ∧
    ∀ e' ∈ S, entryKey e' = entryKey e → e' ≠ w → Beats w e'

instance (S : Finset StatEntry) : Decidable (Decided S) :=
  inferInstanceAs (Decidable (∀ e ∈ S, ∃ w ∈ S, _))

/-! ## Runs without failures -/

theorem writeSSTable_ok (c : Codec) (path : SSTPath) (es : List StatEntry) (d : Disk) :
    (∃ t d', writeSSTable c path es .ok d = .ok t d') ∨
      ∃ d', writeSSTable c path es .ok d = .error d' := by
  unfold writeSSTable
  cases tableRecords c es with
  | none => exact Or.inr ⟨_, rfl⟩
  | some data => exact Or.inl ⟨_, _, rfl⟩

theorem not_crashes_compactLocked (env : Env) (s : Store) :
    ¬ (compactLocked env .ok 0 s).Crashes := by
  simp only [compactLocked]
  split_ifs
  · exact id
  · unfold mergeSources
    split
    · rename_i entries _ _
      rcases writeSSTable_ok env.codec ((s.padded 0).nextSSTablePath env (0 + 1)) entries
        (s.padded 0).tick.disk with ⟨t, d, hw⟩ | ⟨d, hw⟩ <;> simp only [FlushOutcome.ok, hw] <;>
          exact id
    · exact id

theorem not_crashes_flushLocked (env : Env) (s : Store) : ¬ (flushLocked env .ok s).Crashes := by
  unfold flushLocked
  split_ifs
  · exact id
  · rcases writeSSTable_ok env.codec (s.nextSSTablePath env 0) s.tree.memtable.sortedEntries
      s.tick.disk with ⟨t, d, hw⟩ | ⟨d, hw⟩ <;> simp only [FlushOutcome.ok, hw]
    · simp only [finishFlush, rotate]
      split_ifs
      · exact not_crashes_compactLocked env _
      · exact id
    · exact id

/-- Nothing stops the machine in such a run. -/
theorem Op.not_crashes (env : Env) (s : Store) (op : Op) :
    ¬ (op.action.exit env s).1.Crashes := by
  cases op with
  | write e =>
    simp only [Op.action, Action.exit, Metastore.write]
    split
    · exact id
    · simp only [writeLocked]
      split_ifs
      · exact not_crashes_flushLocked env _
      · exact id
  | flush => exact not_crashes_flushLocked env s
  | read key => exact id

/-- **Along such a run every written entry stays in the tree, by rank.** -/
theorem good_replica {ρ : Type*} [LinearOrder ρ] (R : Ranking ρ) (env : Env) (maxMemBytes : ℤ)
    {ops : List Op} (hok : ∀ e ∈ written ops, R.Ok e) :
    (replica env maxMemBytes ops).Good R env ∧
      ∀ e ∈ written ops, env.codec.marshal e ≠ none →
        ↑(R.rank e) ≤ (replica env maxMemBytes ops).store.tree.top R env.codec (entryKey e) := by
  induction ops using List.reverseRecOn with
  | nil => exact ⟨good_init, by simp [written]⟩
  | append_singleton ops op ih =>
    have hwritten : written (ops ++ [op]) = written ops ++ written [op] := List.filterMap_append
    obtain ⟨hg, hle⟩ := ih fun e he => hok e (by simp [hwritten, he])
    have hentry : ∀ e, e ∈ op.action.given ↔ e ∈ written [op] := by
      intro e
      cases op <;> simp [Op.action, Action.given, written, eq_comm]
    have hstep : replica env maxMemBytes (ops ++ [op])
        = (replica env maxMemBytes ops).step env maxMemBytes op.action := by
      simp [replica, history]
    have hop : ∀ e ∈ op.action.given, R.Ok e := fun e he =>
      hok e (by simp [hwritten, (hentry e).mp he])
    obtain ⟨hg', hmono⟩ := hg.step maxMemBytes hop fun hc => absurd hc (op.not_crashes env _)
    rw [hstep]
    refine ⟨hg', fun e he hmar => ?_⟩
    rw [hwritten, List.mem_append] at he
    rcases he with he | he
    · exact (hle e he hmar).trans (hmono _)
    · have hkeeps := hg.inv.action hop
      have hnot := op.not_crashes env (replica env maxMemBytes ops).store
      unfold History.step
      rcases hx : op.action.exit env (replica env maxMemBytes ops).store with
        ⟨⟨s', err⟩ | d, cut⟩ <;>
        rw [hx] at hkeeps hnot
      · exact hkeeps.2.2.2.2.1 e ((hentry e).mpr he) hmar
      · exact absurd trivial hnot

/-! ## Decided conflicts converge -/

/-- Ranking the winner of a key above the rest. -/
def winnerRanking (S : Finset StatEntry) (w : StatEntry)
    (hw : ∀ e ∈ S, entryKey e = entryKey w → e ≠ w → Beats w e) : Ranking Bool where
  rank := fun e => decide (e = w)
  Ok := fun e => e ∈ S
  choosesMax := fun key =>
    { choice := newerOf_choice
      rank_pick := by
        rintro a b ⟨ha, hak⟩ ⟨hb, hbk⟩
        have hself : newerOf w w = w := (newerOf_choice w w).elim id id
        by_cases haw : a = w <;> by_cases hbw : b = w
        · simp [haw, hbw, hself]
        · have hbeats := hw b hb (by rw [hbk, ← hak, haw]) hbw
          simp [haw, hbeats.1]
        · have hbeats := hw a ha (by rw [hak, ← hbk, hbw]) haw
          simp [hbw, hbeats.2.1]
        · rcases newerOf_choice a b with hp | hp <;> simp [hp, haw, hbw] }

/-- A replica answers a decided conflict with its winner. -/
theorem read_eq_winner {env : Env} {S : Finset StatEntry}
    (hmar : ∀ e ∈ S, env.codec.marshal e ≠ none) {w : StatEntry} (hwS : w ∈ S)
    (hw : ∀ e ∈ S, entryKey e = entryKey w → e ≠ w → Beats w e) {maxMemBytes : ℤ} {ops : List Op}
    (hops : Applies ops S) : (replica env maxMemBytes ops).read env (entryKey w) = some w := by
  have hmem : ∀ e, e ∈ written ops ↔ e ∈ S := by
    intro e
    rw [← hops.2, List.mem_toFinset]
  obtain ⟨hg, hle⟩ := good_replica (winnerRanking S w hw) env maxMemBytes
    fun e he => (hmem e).mp he
  have htop := hle w ((hmem w).mpr hwS) (hmar w hwS)
  obtain ⟨-, hrank⟩ := hg.read (entryKey w)
  rw [← hrank] at htop
  cases hread : (replica env maxMemBytes ops).read env (entryKey w) with
  | none => simp [hread, winnerRanking] at htop
  | some r =>
    rw [hread, optRank_some, WithBot.coe_le_coe] at htop
    have hr : decide (r = w) = true := top_le_iff.mp (by simpa [winnerRanking] using htop)
    rw [of_decide_eq_true hr]

/-- Any entries, all of one rank. -/
def flatRanking (P : StatEntry → Prop) : Ranking Unit where
  rank := fun _ => ()
  Ok := P
  choosesMax := fun _ => { choice := newerOf_choice, rank_pick := fun _ _ => rfl }

/-- **A replica answers with an entry that was written under the key**, if
there is one. -/
theorem read_mem (env : Env) {S : Finset StatEntry} (maxMemBytes : ℤ) {ops : List Op}
    (hops : Applies ops S) (key : GoString) :
    (∀ r ∈ (replica env maxMemBytes ops).read env key, r ∈ S ∧ entryKey r = key) ∧
      ∀ e ∈ S, entryKey e = key → env.codec.marshal e ≠ none →
        (replica env maxMemBytes ops).read env key ≠ none := by
  have hmem : ∀ e, e ∈ written ops ↔ e ∈ S := by
    intro e
    rw [← hops.2, List.mem_toFinset]
  obtain ⟨hg, hle⟩ := good_replica (flatRanking fun e => e ∈ S) env maxMemBytes
    fun e he => (hmem e).mp he
  obtain ⟨hst, hrank⟩ := hg.read key
  refine ⟨fun r hr => ⟨(hst r hr).1, (hst r hr).2.1⟩, ?_⟩
  rintro e he rfl hmar hnone
  have htop := hle e ((hmem e).mpr he) hmar
  rw [← hrank, hnone] at htop
  simp [flatRanking] at htop

/-! ## Replicas that never flush -/

/-- A tree with everything in its memtable. -/
structure MemOnly (s : Store) (maxMemBytes : ℤ) : Prop where
  immutable : s.tree.immutable = none
  levels : s.tree.levels = [[]]
  cache : s.tree.blockCache = .new blockCacheEntries
  max : s.tree.maxMemBytes = maxMemBytes

/-- What an entry adds to the size of a memtable at most. -/
def MemTable.cost (c : Codec) (e : StatEntry) : ℤ := (entryKey e).length + c.size e

theorem MemTable.size_put_le (m : MemTable) (c : Codec) (e : StatEntry) :
    (m.put c (entryKey e) e).size ≤ m.size + MemTable.cost c e := by
  have hsize : ∀ x, 0 ≤ c.size x := fun x => Int.natCast_nonneg _
  rw [MemTable.put, MemTable.cost]
  cases m.data.lookup (entryKey e) with
  | none => simp only; omega
  | some x =>
    have hx := hsize x
    have he := hsize e
    rcases newerOf_choice x e with hp | hp <;> simp only [hp] <;> omega

/-- **A write that stays below the threshold** goes to the memtable. -/
theorem MemOnly.write {env : Env} {s : Store} {m : ℤ} (h : MemOnly s m) {e : StatEntry}
    (hmar : env.codec.marshal e ≠ none)
    (hsize : s.tree.memtable.size + MemTable.cost env.codec e ≤ m) :
    ∃ s', Metastore.write env .ok s e = .returned s' false ∧ MemOnly s' m ∧
      s'.tree.memtable = s.tree.memtable.put env.codec (entryKey e) e := by
  obtain ⟨val, hval⟩ := Option.ne_none_iff_exists'.mp hmar
  have hsmall : ¬ (s.applyEntry env e val).tree.memtable.size
      > (s.applyEntry env e val).tree.maxMemBytes := by
    have hput := s.tree.memtable.size_put_le env.codec e
    have hmax : (s.applyEntry env e val).tree.maxMemBytes = m := h.max
    have hmem : (s.applyEntry env e val).tree.memtable
        = s.tree.memtable.put env.codec (entryKey e) e := rfl
    rw [hmem, hmax]
    omega
  refine ⟨s.applyEntry env e val, ?_, ⟨h.immutable, h.levels, ?_, h.max⟩, rfl⟩
  · simp only [Metastore.write, hval, writeLocked, if_neg hsmall]
  · have hcache : (s.applyEntry env e val).tree.blockCache
        = s.tree.blockCache.remove (entryKey e) := rfl
    rw [hcache, h.cache]
    rfl

/-- Reading such a tree is reading its memtable. -/
theorem MemOnly.read {env : Env} {s : Store} {m : ℤ} (h : MemOnly s m) (key : GoString) :
    (s.tree.read env.codec key).1 = s.tree.memtable.get key := by
  have hmiss : s.tree.readCache env.codec key = (none, s.tree) := by
    rw [LSMTree.readCache, h.cache]
    have hget : (LRUCache.new blockCacheEntries).get key
        = (none, LRUCache.new blockCacheEntries) := rfl
    rw [hget, ← h.cache]
    rfl
  have hlookup : s.tree.lookup env.codec key = s.tree.memtable.get key := by
    rw [LSMTree.lookup, h.immutable, h.levels]
    cases s.tree.memtable.get key <;> rfl
  rw [LSMTree.read, hmiss]
  simp only [LSMTree.readLocked, hlookup]
  cases s.tree.memtable.get key with
  | none => rfl
  | some e =>
    simp only
    cases env.codec.marshal e <;> rfl

/-- **A replica that only writes, below the threshold**, holds for each key
what folding its entries gives. -/
theorem memOnly_replica (env : Env) {m : ℤ} (hm : 0 < m) (es : List StatEntry)
    (hmar : ∀ e ∈ es, env.codec.marshal e ≠ none)
    (hsize : (es.map (MemTable.cost env.codec)).sum ≤ m) :
    MemOnly (replica env m (es.map Op.write)).store m ∧
      (replica env m (es.map Op.write)).store.tree.memtable.size
        ≤ (es.map (MemTable.cost env.codec)).sum ∧
      ∀ key, (replica env m (es.map Op.write)).store.tree.memtable.get key
        = (es.filter fun e => entryKey e = key).foldl (fun o e => pickNewer o (some e)) none := by
  induction es using List.reverseRecOn with
  | nil =>
    refine ⟨⟨rfl, rfl, rfl, ?_⟩, le_rfl, fun key => rfl⟩
    have hmax : (replica env m ([].map Op.write)).store.tree.maxMemBytes
        = if m ≤ 0 then defaultMemTableMaxBytes else m := rfl
    rw [hmax, if_neg (by omega)]
  | append_singleton es e ih =>
    have hcost : 0 ≤ MemTable.cost env.codec e := by
      rw [MemTable.cost, Codec.size]
      omega
    simp only [List.map_append, List.map_singleton, List.sum_append, List.sum_singleton] at hsize ⊢
    obtain ⟨hmem, hle, hget⟩ := ih (fun x hx => hmar x (by simp [hx])) (by omega)
    obtain ⟨s', hw, hmem', hput⟩ := hmem.write (hmar e (by simp)) (by omega)
    -- the memtable has room, so nothing is flushed
    have hstep : (replica env m (es.map Op.write ++ [Op.write e])).store = s' := by
      simp only [replica, history, List.map_append, List.map_singleton, List.foldl_append,
        List.foldl_cons, List.foldl_nil]
      rw [History.step]
      simp only [Op.action, Action.exit]
      have hw' := hw
      rw [replica, history] at hw'
      rw [hw']
    rw [hstep]
    refine ⟨hmem', ?_, fun key => ?_⟩
    · rw [hput]
      exact (MemTable.size_put_le _ _ _).trans (by omega)
    · rw [hput, MemTable.get_put, hget, hget]
      by_cases hk : key = entryKey e
      · simp [hk]
      · simp [hk, Ne.symm hk]

/-! ## Convergence -/

/-- Folding `newerOf` over a list returns one of its elements. -/
theorem foldl_newerOf_mem (x : StatEntry) (es : List StatEntry) :
    es.foldl newerOf x ∈ x :: es := by
  induction es generalizing x with
  | nil => simp
  | cons e es ih =>
    have hmem := ih (newerOf x e)
    rcases newerOf_choice x e with hp | hp <;> rw [hp] at hmem <;>
      rw [List.foldl_cons, hp] <;> simp only [List.mem_cons] at hmem ⊢ <;> tauto

theorem foldl_pickNewer_some (x : StatEntry) (es : List StatEntry) :
    es.foldl (fun o e => pickNewer o (some e)) (some x) = some (es.foldl newerOf x) := by
  induction es generalizing x with
  | nil => rfl
  | cons e es ih => exact ih _

/-- What a replica that only writes answers for the key of two entries it
wrote first. -/
theorem exists_replica_first {env : Env} {S : Finset StatEntry}
    (hmar : ∀ e ∈ S, env.codec.marshal e ≠ none) {a b : StatEntry} (ha : a ∈ S) (hb : b ∈ S)
    (hkey : entryKey a = entryKey b) (hne : a ≠ b) :
    ∃ m ops, Applies ops S ∧ ∃ rest : List StatEntry, a ∉ rest ∧ b ∉ rest ∧
      (replica env m ops).read env (entryKey a) = some (rest.foldl newerOf (newerOf a b)) := by
  -- the two are written first, and the memtable is made to hold all
  set es := a :: b :: (S \ {a, b}).toList with hes
  have hwritten : written (es.map Op.write) = es := by
    rw [written, List.filterMap_map]
    exact List.filterMap_some
  have happlies : Applies (es.map Op.write) S := by
    rw [Applies, hwritten, hes]
    refine ⟨?_, ?_⟩
    · simp only [List.nodup_cons, List.mem_cons, Finset.mem_toList, Finset.mem_sdiff,
        Finset.mem_insert, Finset.mem_singleton, Finset.nodup_toList, and_true]
      exact ⟨by tauto, by tauto⟩
    · ext x
      simp only [List.toFinset_cons, Finset.toList_toFinset, Finset.mem_insert, Finset.mem_sdiff,
        Finset.mem_singleton]
      by_cases hxa : x = a
      · simp [hxa, ha]
      · by_cases hxb : x = b
        · simp [hxb, hb]
        · simp [hxa, hxb]
  have hmem : ∀ e ∈ es, e ∈ S := by
    intro e he
    rw [← happlies.2, hwritten]
    exact List.mem_toFinset.mpr he
  set m : ℤ := max 1 (es.map (MemTable.cost env.codec)).sum with hm
  obtain ⟨honly, -, hget⟩ := memOnly_replica env (m := m) (lt_max_of_lt_left one_pos) es
    (fun e he => hmar e (hmem e he)) (le_max_right _ _)
  refine ⟨m, es.map Op.write, happlies,
    (S \ {a, b}).toList.filter fun e => entryKey e = entryKey a, ?_, ?_, ?_⟩
  · simp
  · simp
  -- the read folds over the entries of the key, in the order they were written
  · have hfilter : es.filter (fun e => entryKey e = entryKey a)
        = a :: b :: (S \ {a, b}).toList.filter fun e => entryKey e = entryKey a := by
      rw [hes, List.filter_cons_of_pos (by simp), List.filter_cons_of_pos (by simp [hkey])]
    rw [History.read, honly.read, hget, hfilter]
    simp only [List.foldl_cons]
    exact foldl_pickNewer_some _ _

/-- **Replicas converge exactly on decided conflicts.** -/
theorem converges_iff_decided (env : Env) (S : Finset StatEntry)
    (hmar : ∀ e ∈ S, env.codec.marshal e ≠ none) : Converges env S ↔ Decided S := by
  constructor
  · intro hconv e he
    have happlies : Applies (S.toList.map Op.write) S := by
      have hwritten : written (S.toList.map Op.write) = S.toList := by
        rw [written, List.filterMap_map]
        exact List.filterMap_some
      rw [Applies, hwritten]
      exact ⟨S.nodup_toList, S.toList_toFinset⟩
    -- the common answer is the winner: were it to lose to another entry,
    -- the replica that writes these two first would answer otherwise
    obtain ⟨hfrom, hsome⟩ := read_mem env 0 happlies (entryKey e)
    obtain ⟨r, hr⟩ := Option.ne_none_iff_exists'.mp (hsome e he rfl (hmar e he))
    obtain ⟨hrS, hrk⟩ := hfrom r hr
    have hagree : ∀ m ops, Applies ops S → (replica env m ops).read env (entryKey e) = some r :=
      fun m ops hops => (hconv m 0 ops _ hops happlies _).trans hr
    refine ⟨r, hrS, hrk, fun e' he' hk' hne => ⟨?_, ?_, hne.symm⟩⟩
    · refine (newerOf_choice r e').resolve_right fun hlose => ?_
      obtain ⟨m, ops, hops, rest, hrest, -, hread⟩ :=
        exists_replica_first hmar hrS he' (hrk.trans hk'.symm) hne.symm
      rw [hrk, hagree m ops hops, hlose, Option.some.injEq] at hread
      have hmem := foldl_newerOf_mem e' rest
      rw [← hread, List.mem_cons] at hmem
      exact hmem.elim hne.symm hrest
    · refine (newerOf_choice e' r).resolve_left fun hlose => ?_
      obtain ⟨m, ops, hops, rest, -, hrest, hread⟩ :=
        exists_replica_first hmar he' hrS (hk'.trans hrk.symm) hne
      rw [hk', hagree m ops hops, hlose, Option.some.injEq] at hread
      have hmem := foldl_newerOf_mem e' rest
      rw [← hread, List.mem_cons] at hmem
      exact hmem.elim hne.symm hrest
  · intro hdec m₁ m₂ ops₁ ops₂ h₁ h₂ key
    by_cases hkey : ∃ e ∈ S, entryKey e = key
    · obtain ⟨e, he, rfl⟩ := hkey
      obtain ⟨w, hwS, hwk, hw⟩ := hdec e he
      rw [← hwk] at hw ⊢
      rw [read_eq_winner hmar hwS hw h₁, read_eq_winner hmar hwS hw h₂]
    · have hnone : ∀ m ops, Applies ops S → (replica env m ops).read env key = none := by
        intro m ops hops
        refine Option.eq_none_iff_forall_not_mem.mpr fun r hr => hkey ⟨r, ?_⟩
        exact (read_mem env _ hops key).1 r hr
      rw [hnone m₁ ops₁ h₁, hnone m₂ ops₂ h₂]

/-- Two entries of one key, equal in what `pickNewer` looks at. -/
def tied (winRate : UInt64) : StatEntry := { sampleEntry 97 1 with winRate := winRate }

/-- Their encodings. -/
def tiedEnv : Env where
  codec := .ofTable
    [(tied 4602678819172646912, [10, 1, 97, 49, 0, 0, 0, 0, 0, 0, 224, 63, 82, 7, 10, 5, 10, 1, 110,
        16, 1]),
      (tied 4598175219545276416, [10, 1, 97, 49, 0, 0, 0, 0, 0, 0, 208, 63, 82, 7, 10, 5, 10, 1,
        110, 16, 1])] (by decide)
  nano := fun n => n
  nano_strictMono := strictMono_id

/-- Versions of one key with increasing clocks are decided. -/
theorem converges_iff_decided_sample :
    Converges risingEnv {sampleEntry 97 1, sampleEntry 97 2, sampleEntry 97 3} ∧
      ¬ Converges tiedEnv {tied 4602678819172646912, tied 4598175219545276416} :=
  ⟨(converges_iff_decided risingEnv _ (by decide)).mpr (by decide),
    fun h => absurd ((converges_iff_decided tiedEnv _ (by decide)).mp h) (by decide)⟩

/-- **Replicas need not converge**: two entries with equal clocks and sample
sizes and different win rates, written in either order. -/
theorem not_converges : ¬ ∀ (env : Env) (S : Finset StatEntry),
    (∀ e ∈ S, env.codec.marshal e ≠ none) → Converges env S := by
  intro h
  have hread := h tiedEnv {tied 4602678819172646912, tied 4598175219545276416} (by decide) 0 0
    [.write (tied 4602678819172646912), .write (tied 4598175219545276416)]
    [.write (tied 4598175219545276416), .write (tied 4602678819172646912)]
    (by decide) (by decide) [97, 58, 58, 58]
  revert hread
  decide

end Metastore

end TftAnalytics

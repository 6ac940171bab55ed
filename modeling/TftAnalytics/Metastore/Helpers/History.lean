import TftAnalytics.Metastore.Helpers.Write
import TftAnalytics.Metastore.Model.History
/-!
# Metastore — what a history keeps

Helper layer. Along a history in which no stop finds a record behind a
torn one, the invariant holds, acknowledged entries stay in the tree by
rank, and no rank ever falls.
-/

namespace TftAnalytics

namespace Metastore

variable {ρ : Type*} [LinearOrder ρ] (R : Ranking ρ) (env : Env)

/-- **What holds of a tree with its history**, whatever was lost before. -/
structure History.Sound (h : History) : Prop where
  inv : Inv R env h.store
  logged : h.buried = false → Logged R env h.store
  wal_ne : h.buried = true → h.store.disk.wal ≠ []

/-- **What holds along a history.** -/
structure History.Good (h : History) : Prop where
  inv : Inv R env h.store
  logged : h.buried = false → Logged R env h.store
  wal_ne : h.buried = true → h.store.disk.wal ≠ []
  acked : ∀ e ∈ h.acked, ↑(R.rank e) ≤ h.store.tree.top R env.codec (entryKey e)

variable {R env} {maxMemBytes : ℤ} {h : History}

/-- The empty directory holds nothing. -/
theorem recoverable_empty (R : Ranking ρ) (env : Env) : Recoverable R env .empty fun _ => ⊥ where
  files :=
    { level_le := by simp [Disk.empty]
      nano_lt := by simp [Disk.empty]
      distinct := by simp [Disk.empty]
      ok := by simp [Disk.empty, Disk.tables]
      le_top := by simp [Disk.empty, Disk.tables]
      chain := by simp [Disk.empty, Disk.tables] }
  log :=
    { synced_le := le_rfl
      tail := Or.inl rfl
      entries := by simp [Disk.empty] }
  complete := fun _ _ _ _ => bot_le

theorem good_init : (History.init env maxMemBytes).Good R env := by
  obtain ⟨hinv, hlogged, -⟩ := (recoverable_empty R env).newLSMTree maxMemBytes
  exact ⟨hinv, fun _ => hlogged, by simp [History.init], by simp [History.init]⟩

/-- **The locked section of a write**, wherever it stops, keeps the ranks
it raised. -/
theorem Inv.writeLocked {s : Store} (h : Inv R env s) (io : FlushOutcome) {e : StatEntry}
    (he : e ∈ Storable R env.codec (entryKey e)) (val : Bytes) :
    (writeLocked env io s e val).Keeps R env (s.applyEntry env e val) := by
  have happly := h.applyEntry he val
  simp only [Metastore.writeLocked]
  split_ifs
  · exact happly.flushLocked io
  · exact ⟨happly, rfl, id, Or.inl rfl⟩

/-- **What an action does to a tree**: no rank falls, a write raises the
rank of its key, and unless the action buries a record the log goes on
standing for the memtable, in the tree that returned or in the directory
that is left. The files are there in any case. -/
def Action.Keeps (R : Ranking ρ) (env : Env) (s : Store) (a : Action) : Exit × ℕ → Prop
  | (.returned s' err, _) => Inv R env s' ∧
      (∀ key, s.tree.top R env.codec key ≤ s'.tree.top R env.codec key) ∧
      (Logged R env s → ¬ a.Buries env s → Logged R env s') ∧
      (s.disk.wal ≠ [] → s'.disk.wal = [] → Logged R env s') ∧
      (∀ e ∈ a.given, env.codec.marshal e ≠ none →
        ↑(R.rank e) ≤ s'.tree.top R env.codec (entryKey e)) ∧
      ∀ e ∈ a.ack err, ↑(R.rank e) ≤ s'.tree.top R env.codec (entryKey e)
  | (.crashed d, cut) => (∃ top, Files R env (d.survive cut) top) ∧
      (Logged R env s → ¬ a.Buries env s → ∃ top, Recoverable R env (d.survive cut) top ∧
        ∀ key, s.tree.top R env.codec key ≤ top key)

theorem Inv.action_write {s : Store} (h : Inv R env s) {e : StatEntry} (he : R.Ok e)
    (io : FlushOutcome) :
    (Action.write e io).Keeps R env s ((Action.write e io).exit env s) := by
  rw [Action.exit, Metastore.write]
  cases hval : env.codec.marshal e with
  | none =>
    -- what does not marshal is turned down before anything is done
    refine ⟨h, fun _ => le_rfl, fun hl _ => hl, fun hne hnil => absurd hnil hne, ?_,
      by simp [Action.ack]⟩
    rintro _ ⟨⟩ hne
    exact absurd hval hne
  | some val =>
    have hst : e ∈ Storable R env.codec (entryKey e) := ⟨he, rfl, val, hval⟩
    have hkeeps := h.writeLocked io hst val
    have hraise := applyEntry_top h hst val
    -- records are appended to a log of complete ones, or the write buries them
    have hlogged : Logged R env s → ¬ (Action.write e io).Buries env s →
        Logged R env (s.applyEntry env e val) := by
      intro hl hb
      refine hl.applyEntry h ?_ hst hval
      by_contra hwhole
      exact hb ⟨by simp [hval], hwhole⟩
    simp only
    cases hw : Metastore.writeLocked env io s e val with
    | returned s' err =>
      rw [hw] at hkeeps
      obtain ⟨hinv, htop, hl', hwal⟩ := hkeeps
      have hrank : ↑(R.rank e) ≤ s'.tree.top R env.codec (entryKey e) := by
        rw [htop, hraise]
        exact rank_le_raise _ e
      refine ⟨hinv, fun key => ?_, fun hl hb => hl' (hlogged hl hb), fun _ hnil => ?_, ?_, ?_⟩
      · rw [htop, hraise]
        exact le_raise _ e key
      -- the log is longer than it was, unless the flush truncated it
      · refine hwal.resolve_left fun heq => ?_
        rw [hnil] at heq
        have hlen := congrArg List.length heq
        simp [Store.applyEntry, writeRecords, Disk.appendWal, Disk.syncWal, appendRecord,
          walRecord] at hlen
      · rintro _ ⟨⟩ -
        exact hrank
      · intro x hx
        cases err with
        | true => simp [Action.ack] at hx
        | false =>
          obtain rfl : x = e := by simpa [Action.ack] using hx
          exact hrank
    | crashed d =>
      rw [hw] at hkeeps
      refine ⟨⟨_, hkeeps.1.of_eq rfl le_rfl⟩, fun hl hb => ?_⟩
      refine ⟨_, (hkeeps.2 (hlogged hl hb)).survive _, fun key => ?_⟩
      rw [hraise]
      exact le_raise _ e key

theorem Inv.action_flush {s : Store} (h : Inv R env s) (io : FlushOutcome) :
    (Action.flush io).Keeps R env s ((Action.flush io).exit env s) := by
  have hkeeps := h.flushLocked io
  rw [Action.exit]
  cases hf : Metastore.flushLocked env io s with
  | returned s' err =>
    rw [hf] at hkeeps
    obtain ⟨hinv, htop, hl', hwal⟩ := hkeeps
    exact ⟨hinv, fun key => by rw [htop], fun hl _ => hl' hl,
      fun hne hnil => hwal.resolve_left fun heq => hne (heq ▸ hnil), by simp [Action.given],
      by simp [Action.ack]⟩
  | crashed d =>
    rw [hf] at hkeeps
    exact ⟨⟨_, hkeeps.1.of_eq rfl le_rfl⟩,
      fun hl _ => ⟨_, (hkeeps.2 hl).survive _, fun _ => le_rfl⟩⟩

/-- **Every action keeps what it should.** -/
theorem Inv.action {s : Store} (h : Inv R env s) {a : Action}
    (ha : ∀ e ∈ a.given, R.Ok e) : a.Keeps R env s (a.exit env s) := by
  cases a with
  | write e io => exact h.action_write (ha e rfl) io
  | flush io => exact h.action_flush io
  | read key =>
    obtain ⟨-, -, hinv, htop⟩ := h.read key
    exact ⟨hinv, fun key => by rw [htop],
      fun hl _ => ⟨by rw [htop]; exact hl.log, by simp only [read_memtable]; exact hl.mem⟩,
      fun hne hnil => absurd hnil hne, by simp [Action.given], by simp [Action.ack]⟩
  | crash cut =>
    exact ⟨⟨_, h.files.of_eq rfl le_rfl⟩,
      fun hl _ => ⟨_, (h.recoverable hl).survive cut, fun _ => le_rfl⟩⟩
  | crashWrite e cut =>
    rw [Action.exit]
    cases hval : env.codec.marshal e with
    | none =>
      exact ⟨⟨_, h.files.of_eq rfl le_rfl⟩,
        fun hl _ => ⟨_, (h.recoverable hl).survive cut, fun _ => le_rfl⟩⟩
    | some val =>
      refine ⟨⟨_, h.files.of_eq rfl le_rfl⟩, fun hl hb => ?_⟩
      have hwhole : s.disk.wal.length < cut → Whole s.disk.wal := by
        intro hlt
        by_contra hwhole
        exact hb ⟨by simp [hval], hlt, hwhole⟩
      rcases h.tornWrite hl ⟨ha e rfl, rfl, val, hval⟩ hval hwhole with hrec | hrec
      · exact ⟨_, hrec, fun _ => le_rfl⟩
      · exact ⟨_, hrec, le_raise _ e⟩

theorem Action.Buries.wal_ne {s : Store} {a : Action} (h : a.Buries env s) : s.disk.wal ≠ [] := by
  intro hnil
  cases a with
  | write e io => exact h.2 (hnil ▸ whole_nil)
  | crashWrite e cut => exact h.2.2 (hnil ▸ whole_nil)
  | flush io => exact h
  | read key => exact h
  | crash cut => exact h

/-- What a stop leaves of the log. -/
def Action.left (env : Env) (s : Store) (a : Action) : Option Bytes :=
  match a.exit env s with
  | (.returned _ _, _) => none
  | (.crashed d, cut) => some (d.survive cut).wal

/-- **One action, whatever was lost before**: a stop finds no record behind
a torn one, or leaves a log that reads back. -/
theorem History.Sound.step (hs : h.Sound R env) (maxMemBytes : ℤ) {a : Action}
    (ha : ∀ e ∈ a.given, R.Ok e)
    (hreads : ∀ log ∈ a.left env h.store, h.Spares env a ∨
      ∀ r ∈ Metastore.logged log, ∀ e, env.codec.unmarshal r.2 = some e →
        e ∈ Storable R env.codec r.1) :
    (h.step env maxMemBytes a).Sound R env := by
  have hkeeps := hs.inv.action ha
  unfold History.Spares Action.left at hreads
  unfold History.step
  rcases hx : a.exit env h.store with ⟨⟨s', err⟩ | d, cut⟩ <;> rw [hx] at hkeeps hreads
  · obtain ⟨hinv, -, hlogged, hempty, -, -⟩ := hkeeps
    refine ⟨hinv, fun hb => ?_, fun hb => ?_⟩
    · by_cases hbury : a.Buries env h.store
      · refine hempty hbury.wal_ne ?_
        simpa [hbury] using hb
      · by_cases hburied : h.buried = true
        · refine hempty (hs.wal_ne hburied) ?_
          simpa [hburied] using hb
        · exact hlogged (hs.logged (by simpa using hburied)) hbury
    · simp only [Bool.and_eq_true, decide_eq_true_eq] at hb
      exact hb.2
  · obtain ⟨⟨top, hfiles⟩, hrec⟩ := hkeeps
    have hrecoverable : ∃ top, Recoverable R env (d.survive cut) top := by
      rcases hreads _ rfl with hspares | hread
      · obtain ⟨hburied, hbury⟩ := hspares trivial
        obtain ⟨top, hrec, -⟩ := hrec (hs.logged hburied) hbury
        exact ⟨top, hrec⟩
      · exact hfiles.recoverable rfl hread
    obtain ⟨top, hrec⟩ := hrecoverable
    obtain ⟨hinv, hlogged, -⟩ := hrec.newLSMTree maxMemBytes
    exact ⟨hinv, fun _ => hlogged, by simp⟩

theorem History.Good.sound (hg : h.Good R env) : h.Sound R env := ⟨hg.inv, hg.logged, hg.wal_ne⟩

/-- **One action of a history.** -/
theorem History.Good.step (hg : h.Good R env) (maxMemBytes : ℤ) {a : Action}
    (ha : ∀ e ∈ a.given, R.Ok e) (hspares : h.Spares env a) :
    (h.step env maxMemBytes a).Good R env ∧ ∀ key, h.store.tree.top R env.codec key
      ≤ (h.step env maxMemBytes a).store.tree.top R env.codec key := by
  obtain ⟨hinv, hlogged, hwal⟩ := hg.sound.step maxMemBytes ha fun _ _ => .inl hspares
  have hkeeps := hg.inv.action ha
  unfold History.Spares at hspares
  have hmono : ∀ key, h.store.tree.top R env.codec key
      ≤ (h.step env maxMemBytes a).store.tree.top R env.codec key := by
    unfold History.step
    rcases hx : a.exit env h.store with ⟨⟨s', err⟩ | d, cut⟩ <;> rw [hx] at hkeeps hspares
    · exact hkeeps.2.1
    · obtain ⟨hburied, hbury⟩ := hspares trivial
      obtain ⟨top, hrec, htop⟩ := hkeeps.2 (hg.logged hburied) hbury
      obtain ⟨-, -, heq⟩ := hrec.newLSMTree maxMemBytes
      show ∀ key, _ ≤ (newLSMTree env maxMemBytes (d.survive cut)).tree.top R env.codec key
      rw [heq]
      exact htop
  refine ⟨⟨hinv, hlogged, hwal, fun e he => ?_⟩, hmono⟩
  -- an entry was acknowledged before, or by this action
  by_cases hold : e ∈ h.acked
  · exact (hg.acked e hold).trans (hmono _)
  · revert he
    unfold History.step
    rcases hx : a.exit env h.store with ⟨⟨s', err⟩ | d, cut⟩ <;> rw [hx] at hkeeps
    · intro he
      exact hkeeps.2.2.2.2.2 e ((List.mem_append.mp he).resolve_right hold)
    · exact fun he => absurd he hold

/-- **A whole history.** -/
theorem good_history {acts : List Action} (hacts : ∀ a ∈ acts, ∀ e ∈ a.given, R.Ok e)
    (hspares : Unburied env maxMemBytes (.init env maxMemBytes) acts) :
    (history env maxMemBytes acts).Good R env := by
  suffices h : ∀ (acts : List Action) (h : History), h.Good R env →
      (∀ a ∈ acts, ∀ e ∈ a.given, R.Ok e) → Unburied env maxMemBytes h acts →
      (acts.foldl (History.step env maxMemBytes) h).Good R env from
    h acts _ good_init hacts hspares
  intro acts
  induction acts with
  | nil => exact fun _ hg _ _ => hg
  | cons a acts ih =>
    intro h hg hacts hspares
    obtain ⟨hgood, -⟩ := hg.step maxMemBytes (hacts a (by simp)) hspares.1
    exact ih _ hgood (fun b hb => hacts b (by simp [hb])) hspares.2

/-- **What a read returns along a history** is an entry of the largest rank
of its key. -/
theorem History.Good.read (hg : h.Good R env) (key : GoString) :
    (∀ e ∈ h.read env key, e ∈ Storable R env.codec key) ∧
      optRank R.rank (h.read env key) = h.store.tree.top R env.codec key :=
  ⟨(hg.inv.read key).1, (hg.inv.read key).2.1⟩

/-! ## Clocks as ranks -/

/-- Clock sum and sample size rank the entries whose clocks are sound. -/
def clockRanking (P : StatEntry → Prop) : Ranking (ℤ ×ₗ ℤ) where
  rank := clockRank
  Ok := fun e => P e ∧ Clocked e
  choosesMax := fun _ =>
    { choice := newerOf_choice
      rank_pick := fun ha hb => choosesMax_newerOf.rank_pick ha.1.2 hb.1.2 }

/-- A larger rank is not beaten. -/
theorem not_beats_of_rank_le {e r : StatEntry} (he : Clocked e) (hr : Clocked r)
    (h : clockRank e ≤ clockRank r) : ¬ Beats e r := by
  rintro ⟨-, hre, hne⟩
  rw [newerOf_eq hr he, if_neg (not_lt.mpr h)] at hre
  exact hne hre.symm

end Metastore

end TftAnalytics

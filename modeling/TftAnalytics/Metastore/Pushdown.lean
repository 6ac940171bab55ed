import TftAnalytics.Metastore.Background
import TftAnalytics.Metastore.Interruption
import TftAnalytics.Metastore.Helpers.Versions
/-!
# Metastore — a filter pushed down into a scan

`LSMTree.Scan` filters the versions of each source and merges what is
left, so a version that does not match cannot win over one that does.
Where the filtered fields are a function of the key this makes no
difference: of a key all stored versions match or none does, and what the
tree stores of the key still has the newest version ever written, through
every flush, compaction and reopening.
-/

namespace TftAnalytics

namespace Metastore

/-! ## Runs without crashes or I/O errors -/

/-- The action neither stops the machine nor meets an error. -/
def Action.Smooth : Action → Prop
  | .write _ io => io = .ok
  | .flush io => io = .ok
  | .read _ => True
  | .crash _ => False
  | .crashWrite _ _ => False

/-- Nor does the work in the background. -/
def Background.Smooth : Background → Prop
  | .flush io => io = .ok
  | .compact io => io = .ok
  | .reopen io => io = .ok
  | .evict => True
  | .read _ => True

/-- A piece of work without crashes or I/O errors. -/
def Work.Smooth : Work → Prop
  | .action a => a.Smooth
  | .background b => b.Smooth

/-- The versions a run writes. What does not marshal `Write` turns
down. -/
def versionsWritten (env : Env) (ws : List Work) : List StatEntry :=
  (givenEntries ws).filter fun e => (env.codec.marshal e).isSome

/-- **The filtered fields are a function of the key** on these versions. -/
def FilterKeyed (es : List StatEntry) : Prop :=
  ∀ a ∈ es, ∀ b ∈ es, entryKey a = entryKey b →
    a.entityType = b.entityType ∧ a.patch = b.patch ∧ a.tier = b.tier ∧ a.region = b.region

instance (es : List StatEntry) : Decidable (FilterKeyed es) :=
  inferInstanceAs (Decidable (∀ a ∈ es, ∀ b ∈ es, _ → _))

/-- **A sound filtered scan** of a tree that a run has left: one entry for
each key whose stored versions match, each a matching version that was
written and of the largest clock sum and sample size among those written
for its key. A key that was written is stored. -/
structure SoundScan (env : Env) (ws : List Work) (t : LSMTree) (req : ScanRequest)
    (out : List StatEntry) : Prop where
  nodup : (out.map entryKey).Nodup
  key_iff : ∀ key, key ∈ out.map entryKey ↔
    ∃ v ∈ t.stored env.codec, entryKey v = key ∧ scanPredicate req v = true
  matching : ∀ e ∈ out, scanPredicate req e = true
  written : ∀ e ∈ out, e ∈ versionsWritten env ws
  newest : ∀ e ∈ out, ∀ v ∈ versionsWritten env ws, entryKey v = entryKey e →
    clockRank v ≤ clockRank e
  kept : ∀ v ∈ versionsWritten env ws, ∃ v' ∈ t.stored env.codec, entryKey v' = entryKey v

/-! ## The log of such a run -/

/-- The operation returned, and left a log of complete records. -/
def Exit.Whole : Exit → Prop
  | .returned s _ => Metastore.Whole s.disk.wal
  | .crashed _ => False

variable {env : Env} {maxMemBytes : ℤ}

theorem whole_compactLocked {s : Store} (h : Whole s.disk.wal) :
    (compactLocked env .ok 0 s).Whole := by
  simp only [compactLocked]
  split_ifs
  · exact h
  · unfold mergeSources
    split
    · rename_i entries _ _
      unfold writeSSTable
      cases tableRecords env.codec entries with
      | none => exact h
      | some data => exact h
    · exact h

theorem whole_flushLocked {s : Store} (h : Whole s.disk.wal) :
    (flushLocked env .ok s).Whole := by
  unfold flushLocked
  split_ifs
  · exact h
  · simp only [FlushOutcome.ok, writeSSTable, finishFlush, rotate]
    cases tableRecords env.codec s.tree.memtable.sortedEntries with
    | none => exact h
    | some data =>
      -- the log is rotated, so it is empty before the compaction
      simp only
      split_ifs
      · exact whole_compactLocked whole_nil
      · exact whole_nil

theorem whole_applyEntry {s : Store} (h : Whole s.disk.wal) {e : StatEntry} {val : Bytes}
    (hval : env.codec.marshal e = some val) : Whole (s.applyEntry env e val).disk.wal := by
  obtain ⟨hkey, hlen⟩ := length_entryKey_lt hval
  exact (logged_commitRecord (logged_appendRecord h hkey hlen).2 _).2

theorem Action.Smooth.whole {a : Action} (ha : a.Smooth) {s : Store} (h : Whole s.disk.wal) :
    (a.exit env s).1.Whole := by
  cases a with
  | write e io =>
    obtain rfl : io = .ok := ha
    simp only [Action.exit, Metastore.write]
    cases hval : env.codec.marshal e with
    | none => exact h
    | some val =>
      simp only [writeLocked]
      split_ifs
      · exact whole_flushLocked (whole_applyEntry h hval)
      · exact whole_applyEntry h hval
  | flush io =>
    obtain rfl : io = .ok := ha
    exact whole_flushLocked h
  | read key => exact h
  | crash cut => exact ha.elim
  | crashWrite e cut => exact ha.elim

theorem Background.Smooth.whole {b : Background} (hb : b.Smooth) {s : Store}
    (h : Whole s.disk.wal) : (b.exit env s).1.Whole := by
  cases b with
  | flush io =>
    obtain rfl : io = .ok := hb
    exact whole_flushLocked h
  | compact io =>
    obtain rfl : io = .ok := hb
    exact whole_compactLocked h
  | evict => exact h
  | read key => exact h
  | reopen io =>
    obtain rfl : io = .ok := hb
    exact whole_flushLocked h

/-- An action that returned buries nothing behind whole records. -/
theorem Action.not_buries {a : Action} {s : Store} (h : Whole s.disk.wal) : ¬ a.Buries env s := by
  cases a with
  | write e io => exact fun hb => hb.2 h
  | crashWrite e cut => exact fun hb => hb.2.2 h
  | flush io => exact id
  | read key => exact id
  | crash cut => exact id

/-! ## What such a run keeps -/

variable {ρ : Type*} [LinearOrder ρ] {R : Ranking ρ}

/-- **What holds along a run without crashes**: all that holds along any,
the log has complete records only, and every version written so far is in
the tree, by rank. -/
structure History.Calm (R : Ranking ρ) (env : Env) (h : History) (vs : List StatEntry) : Prop where
  good : h.Good R env
  buried : h.buried = false
  whole : Metastore.Whole h.store.disk.wal
  kept : ∀ e ∈ vs, env.codec.marshal e ≠ none →
    ↑(R.rank e) ≤ h.store.tree.top R env.codec (entryKey e)

theorem calm_init : (History.init env maxMemBytes).Calm R env [] where
  good := good_init
  buried := rfl
  whole := whole_nil
  kept := by simp

/-- **An action.** -/
theorem History.Calm.action {h : History} {vs : List StatEntry} (hc : h.Calm R env vs) {a : Action}
    (ha : a.Smooth) (hok : ∀ e ∈ a.given, R.Ok e) :
    (h.step env maxMemBytes a).Calm R env (vs ++ a.given.toList) := by
  -- nothing is buried, so no rank is lost
  have hwhole : (a.exit env h.store).1.Whole := ha.whole hc.whole
  have hkeeps := hc.good.inv.action hok
  obtain ⟨hgood, hmono⟩ := hc.good.step maxMemBytes hok
    fun _ => ⟨hc.buried, Action.not_buries hc.whole⟩
  have hold : ∀ e ∈ vs, env.codec.marshal e ≠ none → ↑(R.rank e)
      ≤ (h.step env maxMemBytes a).store.tree.top R env.codec (entryKey e) :=
    fun e he hmar => (hc.kept e he hmar).trans (hmono _)
  refine ⟨hgood, ?_, ?_, fun e he hmar => ?_⟩
  · unfold History.step
    split
    · simp [hc.buried, Action.not_buries hc.whole]
    · rfl
  · unfold History.step
    rcases hx : a.exit env h.store with ⟨⟨s, err⟩ | d, cut⟩ <;> rw [hx] at hwhole
    · exact hwhole
    · exact hwhole.elim
  · rcases List.mem_append.mp he with he | he
    · exact hold e he hmar
    · unfold History.step
      rcases hx : a.exit env h.store with ⟨⟨s, err⟩ | d, cut⟩ <;> rw [hx] at hwhole hkeeps
      · exact hkeeps.2.2.2.2.1 e (Option.mem_toList.mp he) hmar
      · exact hwhole.elim

/-- **Work in the background.** -/
theorem History.Calm.background {h : History} {vs : List StatEntry} (hc : h.Calm R env vs)
    {b : Background} (hb : b.Smooth) : (h.background env maxMemBytes b).Calm R env vs := by
  have hwhole : (b.exit env h.store).1.Whole := hb.whole hc.whole
  have hrests : (b.exit env h.store).1.Rests b.Reopens h.buried := by
    rcases hx : b.exit env h.store with ⟨⟨s, err⟩ | d, cut⟩ <;> rw [hx] at hwhole
    · exact fun _ => .inl hc.buried
    · exact hwhole.elim
  obtain ⟨hgood, htop⟩ := hc.good.background maxMemBytes hrests
  refine ⟨hgood, ?_, ?_, fun e he hmar => by rw [htop]; exact hc.kept e he hmar⟩
  · unfold History.background
    split
    · split_ifs
      · rfl
      · simp [hc.buried]
    · rfl
  · unfold History.background
    rcases hx : b.exit env h.store with ⟨⟨s, err⟩ | d, cut⟩ <;> rw [hx] at hwhole
    · simp only
      split_ifs
      · exact hwhole
      · exact hwhole
    · exact hwhole.elim

/-- **A whole run.** -/
theorem calm_run {ws : List Work} (hsmooth : ∀ w ∈ ws, w.Smooth)
    (hok : ∀ e ∈ givenEntries ws, R.Ok e) :
    (run env maxMemBytes ws).Calm R env (givenEntries ws) := by
  induction ws using List.reverseRecOn with
  | nil => exact calm_init
  | append_singleton ws w ih =>
    have hgiven : givenEntries (ws ++ [w]) = givenEntries ws ++ w.given.toList := by
      cases hw : w.given <;> simp [givenEntries, hw]
    have hstep : run env maxMemBytes (ws ++ [w])
        = (run env maxMemBytes ws).work env maxMemBytes w := by simp [run]
    rw [hgiven] at hok
    have hc := ih (fun w hw => hsmooth w (List.mem_append_left _ hw))
      fun e he => hok e (List.mem_append_left _ he)
    have hw := hsmooth w (by simp)
    rw [hgiven, hstep]
    cases w with
    | action a =>
      exact hc.action hw fun e he => hok e (List.mem_append_right _ (Option.mem_toList.mpr he))
    | background b =>
      simp only [Work.given, Option.toList_none, List.append_nil]
      exact hc.background hw

/-! ## Filtering by key -/

/-- On versions of one key the filter is constant. -/
theorem FilterKeyed.scanPredicate_eq {es : List StatEntry} (h : FilterKeyed es) (req : ScanRequest)
    {a b : StatEntry} (ha : a ∈ es) (hb : b ∈ es) (hkey : entryKey a = entryKey b) :
    scanPredicate req a = scanPredicate req b := by
  obtain ⟨htype, hpatch, htier, hregion⟩ := h a ha b hb hkey
  simp only [scanPredicate, htype, hpatch, htier, hregion]

/-- **A filter that the keys decide commutes with the merge**: a matching
key has the entry of the unfiltered scan. -/
theorem FilterKeyed.lookup_scan {t : LSMTree} {c : Codec} (h : FilterKeyed (t.stored c))
    {req : ScanRequest} {v : StatEntry} (hv : v ∈ t.stored c) (hmatch : scanPredicate req v = true) :
    (t.scan c (scanPredicate req)).lookup (entryKey v)
      = (t.scan c fun _ => true).lookup (entryKey v) := by
  -- all versions of the key match, so filtering leaves them
  have hall : ((t.stored c).filter (scanPredicate req)).filter (fun e => entryKey e = entryKey v)
      = (t.stored c).filter fun e => entryKey e = entryKey v := by
    rw [List.filter_filter]
    refine List.filter_congr fun e he => ?_
    by_cases hkey : entryKey e = entryKey v
    · simp [hkey, h.scanPredicate_eq req he hv hkey, hmatch]
    · simp [hkey]
  rw [t.scan_eq, t.scan_eq, lookup_foldl_mergeEntry, lookup_foldl_mergeEntry, hall,
    List.filter_true]

/-- **Filter pushdown is sound.** After every run without crashes or I/O
errors, with clocks whose counters are non-negative and whose sums are
`int64`s, on a tree in which the filtered fields are a function of the
key. -/
theorem scan_pushdown (env : Env) (maxMemBytes : ℤ) (ws : List Work)
    (hsmooth : ∀ w ∈ ws, w.Smooth) (hclocked : ∀ e ∈ givenEntries ws, Clocked e)
    (hkeyed : FilterKeyed ((run env maxMemBytes ws).store.tree.stored env.codec))
    (req : ScanRequest) (out : List StatEntry)
    (hout : out.Perm (((run env maxMemBytes ws).store.tree.scan env.codec
      (scanPredicate req)).entries.map (·.2))) :
    SoundScan env ws (run env maxMemBytes ws).store.tree req out := by
  have hcalm : (run env maxMemBytes ws).Calm (clockRanking fun e => e ∈ givenEntries ws) env
      (givenEntries ws) := calm_run hsmooth fun e he => ⟨he, hclocked e he⟩
  set t := (run env maxMemBytes ws).store.tree with ht
  have hinv := hcalm.good.inv
  have hscan : Keyed (t.scan env.codec (scanPredicate req)) := keyed_scan t env.codec _
  have hmem : ∀ e, e ∈ out ↔ (t.scan env.codec (scanPredicate req)).lookup (entryKey e) = some e :=
    fun e => (hout.mem_iff).trans hscan.mem_values
  have hfilter : ∀ e ∈ out, e ∈ (t.stored env.codec).filter (scanPredicate req) := by
    intro e he
    have hlookup := (hmem e).mp he
    rw [t.scan_eq] at hlookup
    exact mem_of_lookup_merged hlookup
  -- an entry of the result is the one an unfiltered scan finds
  have hfound : ∀ e ∈ out, e ∈ (t.scan env.codec fun _ => true).lookup (entryKey e) := by
    intro e he
    obtain ⟨hstored, hmatch⟩ := List.mem_filter.mp (hfilter e he)
    rw [← hkeyed.lookup_scan hstored hmatch]
    exact (hmem e).mp he
  have hkeys : ∀ key, key ∈ out.map entryKey ↔
      ∃ v ∈ t.stored env.codec, entryKey v = key ∧ scanPredicate req v = true := by
    intro key
    rw [(hout.map entryKey).mem_iff, hscan.map_entryKey, ← AList.mem_keys, t.scan_eq,
      mem_foldl_mergeEntry]
    simp only [List.mem_filter, and_assoc, and_comm (a := entryKey _ = key)]
  refine ⟨?_, hkeys, fun e he => (List.mem_filter.mp (hfilter e he)).2, fun e he => ?_,
    fun e he v hv hkey => ?_, fun v hv => ?_⟩
  · have hnodup := hscan.nodup_take hout out.length
    rwa [List.take_length] at hnodup
  · obtain ⟨⟨hgiven, -⟩, -, val, hval⟩ := (hinv.scan (entryKey e)).1 e (hfound e he)
    exact List.mem_filter.mpr ⟨hgiven, by simp [hval]⟩
  · obtain ⟨hgiven, hmar⟩ := List.mem_filter.mp hv
    have hle := hcalm.kept v hgiven (Option.isSome_iff_ne_none.mp hmar)
    rw [hkey, ← (hinv.scan (entryKey e)).2, hfound e he, optRank_some, WithBot.coe_le_coe] at hle
    exact hle
  · obtain ⟨hgiven, hmar⟩ := List.mem_filter.mp hv
    have hle := hcalm.kept v hgiven (Option.isSome_iff_ne_none.mp hmar)
    have hmemkey : entryKey v ∈ t.scan env.codec fun _ => true := by
      rw [← AList.lookup_isSome, Option.isSome_iff_ne_none]
      intro hnone
      rw [← (hinv.scan (entryKey v)).2, hnone] at hle
      exact absurd hle (by simp)
    rw [t.scan_eq, mem_foldl_mergeEntry, List.filter_true] at hmemkey
    exact hmemkey

/-- A request without a filter. -/
def anyEntry : ScanRequest := ⟨[], [], [], [], 0⟩

/-- The older version is written last, into the memtable of a tree that
was closed and opened. -/
def reopenedRun : List Work :=
  [.action (.write (sampleEntry 97 2) .ok), .background (.reopen .ok),
    .action (.write (sampleEntry 97 1) .ok)]

theorem scan_pushdown_reopened :
    SoundScan versionsEnv reopenedRun (run versionsEnv 0 reopenedRun).store.tree anyEntry
      [sampleEntry 97 2] :=
  scan_pushdown versionsEnv 0 reopenedRun
    (by simp [reopenedRun, Work.Smooth, Action.Smooth, Background.Smooth]) (by decide) (by decide)
    anyEntry _ (by decide)

/-- **Where a sum wraps the scan is not of the largest sum**: of a clock
whose counters sum to `2 ^ 63` and one of sum `1`, it returns the second. -/
theorem not_scan_pushdown : ¬ ∀ (env : Env) (maxMemBytes : ℤ) (ws : List Work),
    (∀ w ∈ ws, w.Smooth) →
    (∀ e ∈ givenEntries ws, ∀ p ∈ (clockMap e.clock).entries, 0 ≤ p.2) →
    FilterKeyed ((run env maxMemBytes ws).store.tree.stored env.codec) →
    ∀ (req : ScanRequest) (out : List StatEntry),
      out.Perm (((run env maxMemBytes ws).store.tree.scan env.codec
        (scanPredicate req)).entries.map (·.2)) →
      SoundScan env ws (run env maxMemBytes ws).store.tree req out := by
  intro h
  have hsound := h cyclicEnv 0 [.action (.write (cyclic 3) .ok), .action (.write (cyclic 5) .ok)]
    (by simp [Work.Smooth, Action.Smooth]) (by decide) (by decide) anyEntry [cyclic 5] (by decide)
  have hle := hsound.newest (cyclic 5) (by simp) (cyclic 3) (by decide) (by decide)
  revert hle
  decide

end Metastore

end TftAnalytics

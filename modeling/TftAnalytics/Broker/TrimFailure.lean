import TftAnalytics.Broker.Helpers.Storage
/-!
# Broker — trims that fail

`Append` drops the error of `trimLocked`. Up to the sync of the temporary
file a failed trim has changed nothing, and the partition goes on as if it
had not been attempted. Then the handle of the log is closed, and a rename,
an open or a seek that fails leaves the partition with the closed handle:
nothing is read any more, the new record included, and no later append
succeeds before the partition is opened again.
-/

namespace TftAnalytics

namespace Broker

/-! ## Partitions whose trims may fail -/

/-- A partition, its data directory, and the payloads whose `Append`
returned an offset. -/
structure Trial where
  dir : LogDir
  partition : LogPartition
  acked : List Bytes

/-- What happens to it: an append, in which a step of the trim may fail,
and `Close` followed by `openPartition`. -/
inductive TrialOp where
  | append (payload : Bytes) (stop : Option TrimStop)
  | reopen (maxRecords : ℤ)

/-- The payload it appends. -/
def TrialOp.payload? : TrialOp → Option Bytes
  | append payload _ => some payload
  | reopen _ => none

namespace Trial

/-- A new partition. -/
def start (key : GoString) (maxRecords : ℤ) : Trial :=
  let opened := LogDir.empty.openPartition key maxRecords
  { dir := opened.1, partition := opened.2, acked := [] }

/-- One operation. -/
def step (σ : Trial) : TrialOp → Trial
  | .append payload stop =>
    let appended := σ.partition.append σ.dir stop payload
    { dir := appended.1.1
      partition := appended.1.2
      acked := if appended.2 = none then σ.acked else σ.acked ++ [payload] }
  | .reopen maxRecords =>
    let opened := σ.dir.openPartition σ.partition.key maxRecords
    { σ with dir := opened.1, partition := opened.2 }

/-- A run. -/
def run (key : GoString) (maxRecords : ℤ) (ops : List TrialOp) : Trial :=
  ops.foldl step (start key maxRecords)

/-- An `Append` without its retention step. -/
def untrimmed (σ : Trial) (payload : Bytes) : LogDir × LogPartition :=
  match σ.partition.logFile with
  | none => (σ.dir, σ.partition)
  | some f => σ.partition.record σ.dir f payload

/-- An `Append` gets as far as a trim. -/
def Trims (σ : Trial) (payload : Bytes) : Prop :=
  σ.partition.logFile ≠ none ∧ (σ.untrimmed payload).2.Trims

instance (σ : Trial) (payload : Bytes) : Decidable (σ.Trims payload) :=
  inferInstanceAs (Decidable (_ ∧ _))

end Trial

/-- Appends one after the other, and the offsets they return. -/
def appendAll (s : LogDir × LogPartition) :
    List (Bytes × Option TrimStop) → (LogDir × LogPartition) × List (Option ℤ)
  | [] => (s, [])
  | (payload, stop) :: later =>
    let appended := s.2.append s.1 stop payload
    let rest := appendAll appended.1 later
    (rest.1, appended.2 :: rest.2)

/-- **The failed trim of an append leaves no trace**: the append returns
the next offset, every retained offset reads back its own payload, and
later appends return and leave to read what they would have without the
trim. -/
structure FailureAtomic (σ : Trial) (payload : Bytes) (stop : TrimStop) : Prop where
  acked : (σ.partition.append σ.dir (some stop) payload).2 = some (σ.acked.length : ℤ)
  reads : ∀ o, (σ.step (.append payload (some stop))).partition.baseOffset ≤ o →
    o < (σ.step (.append payload (some stop))).partition.offset →
    ∃ y, (σ.acked ++ [payload])[o.toNat]? = some y ∧
      (σ.step (.append payload (some stop))).partition.readAt
        (σ.step (.append payload (some stop))).dir o = some y
  later : ∀ later o,
    (appendAll (σ.partition.append σ.dir (some stop) payload).1 later).2
        = (appendAll (σ.untrimmed payload) later).2 ∧
      (appendAll (σ.partition.append σ.dir (some stop) payload).1 later).1.2.readAt
          (appendAll (σ.partition.append σ.dir (some stop) payload).1 later).1.1 o
        = (appendAll (σ.untrimmed payload) later).1.2.readAt
          (appendAll (σ.untrimmed payload) later).1.1 o

/-! ## What failed trims leave -/

variable {d : LogDir} {p : LogPartition} {hist : List Bytes} {base : ℕ} {x : Bytes}

/-- The record of an append, without a trim. -/
theorem LogPartition.Holds.record (h : p.Holds d hist base) (hx : Fits x) :
    ∃ f, p.logFile = some f ∧ (p.record d f x).2.Holds (p.record d f x).1 (hist ++ [x]) base := by
  obtain ⟨f, hcurrent, hrep⟩ := h
  obtain ⟨hcurrent', hview⟩ := hcurrent.record x
  refine ⟨f, hcurrent.logFile_eq, f, hcurrent', ?_⟩
  have hpath : (p.record d f x).2.path = p.path := rfl
  rw [hpath, hview]
  exact hrep.record hx

theorem current_rename (d : LogDir) (b : Bytes) (path : GoString) :
    (d.rename b path).current path = b := by
  simp [LogDir.rename, LogDir.current]

/-- **The file after a trim that failed late** is the old log or the new
one, whole. -/
theorem LogPartition.Holds.stored_of_failed (h : p.Holds d hist base) (htrims : p.Trims)
    (stop : TrimStop) :
    ∃ base', Stored ((p.trimLocked d (some stop) p.surplus).1.current p.path) hist base' := by
  have hold := h.stored
  obtain ⟨f, hcurrent, hrep⟩ := h
  obtain ⟨hpos, hlt⟩ := htrims.surplus
  -- the bytes copied are those of the trimmed log
  have hlen := hrep.length_index
  have hbase := hrep.base_le
  obtain ⟨n, hn⟩ : ∃ n : ℕ, p.surplus = n := ⟨p.surplus.toNat, by omega⟩
  have hview : (p.view (d.content p.path f)).index = p.index := rfl
  rw [hview] at hlen
  have hnew := (hrep.trimLocked (d := n) (by omega)).stored
  rw [← hn] at hnew
  have hretained : ((p.view (d.content p.path f)).trimLocked p.surplus).logFile
      = (d.content p.path f).drop (p.index.getD p.surplus.toNat 0) := by
    rw [Partition.trimLocked, hview, if_neg (by omega)]
    rfl
  rw [hretained] at hnew
  unfold LogPartition.trimLocked
  rw [if_neg (by omega)]
  simp only [hcurrent.logFile_eq]
  cases stop with
  | reopen => exact ⟨_, by rw [current_rename]; exact hnew⟩
  | seek => exact ⟨_, by rw [current_rename]; exact hnew⟩
  | seekEnd => exact ⟨base, hold⟩
  | create => exact ⟨base, hold⟩
  | copy => exact ⟨base, hold⟩
  | sync => exact ⟨base, hold⟩
  | rename => exact ⟨base, hold⟩

namespace Trial

variable {σ : Trial}

/-- **What holds along every run**: the file holds what was acknowledged,
and the handle is closed or on that file. -/
structure Good (σ : Trial) : Prop where
  path_eq : σ.partition.path = logName σ.partition.key
  stored : ∃ base, Stored (σ.dir.current σ.partition.path) σ.acked base
  handle : σ.partition.logFile = none ∨ ∃ base, σ.partition.Holds σ.dir σ.acked base

/-- A partition that holds what was acknowledged. -/
theorem good_of_holds (hpath : σ.partition.path = logName σ.partition.key)
    (h : ∃ base, σ.partition.Holds σ.dir σ.acked base) : σ.Good := by
  obtain ⟨base, hholds⟩ := h
  exact ⟨hpath, ⟨base, hholds.stored⟩, .inr ⟨base, hholds⟩⟩

theorem good_start (key : GoString) (maxRecords : ℤ) : (start key maxRecords).Good := by
  have hstored : Stored (LogDir.empty.current (logName key)) [] 0 := stored_nil
  exact good_of_holds rfl ⟨0, hstored.openLog (by simp) maxRecords⟩

/-- The payloads acknowledged so far grow by at most one. -/
theorem length_acked_step (σ : Trial) (op : TrialOp) :
    (σ.step op).acked.length ≤ σ.acked.length + 1 := by
  rcases op with ⟨payload, stop⟩ | maxRecords
  · simp only [step]
    split_ifs <;> simp
  · exact Nat.le_succ _

/-- An append to an open log is the record and then the retention step. -/
theorem append_eq (hopen : σ.partition.logFile ≠ none) (payload : Bytes) (stop : Option TrimStop) :
    σ.partition.append σ.dir stop payload
      = ((σ.untrimmed payload).2.retain (σ.untrimmed payload).1 stop,
        some σ.partition.offset) := by
  unfold LogPartition.append untrimmed
  rcases hf : σ.partition.logFile with - | f
  · exact absurd hf hopen
  · rfl

theorem step_append (hopen : σ.partition.logFile ≠ none) (payload : Bytes)
    (stop : Option TrimStop) :
    σ.step (.append payload stop)
      = { dir := ((σ.untrimmed payload).2.retain (σ.untrimmed payload).1 stop).1
          partition := ((σ.untrimmed payload).2.retain (σ.untrimmed payload).1 stop).2
          acked := σ.acked ++ [payload] } := by
  simp only [step, append_eq hopen, reduceCtorEq, if_false]

/-- Without a trim the record is there. -/
theorem holds_untrimmed {base : ℕ} (h : σ.partition.Holds σ.dir σ.acked base) {payload : Bytes}
    (hx : Fits payload) :
    σ.partition.logFile ≠ none ∧
      (σ.untrimmed payload).2.Holds (σ.untrimmed payload).1 (σ.acked ++ [payload]) base := by
  obtain ⟨f, hf, hrecord⟩ := h.record hx
  simp only [untrimmed, hf]
  exact ⟨Option.some_ne_none f, hrecord⟩

/-- **What an append does** once its record is written: nothing more, a
trim that leaves a log, or a trim that leaves a closed handle. -/
theorem good_append (h : ∃ base, σ.partition.Holds σ.dir σ.acked base)
    (hpath : σ.partition.path = logName σ.partition.key) {payload : Bytes} (hx : Fits payload)
    (stop : Option TrimStop) : (σ.step (.append payload stop)).Good := by
  obtain ⟨base, hholds⟩ := h
  obtain ⟨hopen, hrecord⟩ := holds_untrimmed hholds hx
  obtain ⟨hkey', hpath', -⟩ := kept_append σ.partition σ.dir stop payload
  have hnames : (σ.step (.append payload stop)).partition.path
      = logName (σ.step (.append payload stop)).partition.key :=
    hpath'.trans (hpath.trans (congrArg logName hkey'.symm))
  -- without a trim, or with one that has changed nothing
  have hrecorded : (σ.untrimmed payload).2.retain (σ.untrimmed payload).1 stop
      = σ.untrimmed payload → (σ.step (.append payload stop)).Good := by
    intro hsame
    refine good_of_holds hnames ⟨base, ?_⟩
    rw [step_append hopen, hsame]
    exact hrecord
  by_cases htrims : (σ.untrimmed payload).2.Trims
  · rcases stop with - | stop
    · -- the trim succeeds
      obtain ⟨-, base', -, hholds', -⟩ := hholds.append hx
      refine good_of_holds hnames ⟨base', ?_⟩
      rw [append_eq hopen] at hholds'
      rw [step_append hopen]
      exact hholds'
    · by_cases hstop : stop.BeforeClose
      · refine hrecorded ?_
        rw [retain_of_trims htrims, trimLocked_of_beforeClose hstop]
      · obtain ⟨base', hstored⟩ := hrecord.stored_of_failed htrims stop
        have hclosed := (trimLocked_of_not_beforeClose (d := (σ.untrimmed payload).1) hstop
          htrims.surplus).1
        rw [← retain_of_trims htrims] at hclosed hstored
        have hsamePath : ((σ.untrimmed payload).2.retain (σ.untrimmed payload).1 (some stop)).2.path
            = (σ.untrimmed payload).2.path := by
          rw [retain_of_trims htrims]
          exact (kept_trimLocked ..).2.1
        refine ⟨hnames, ⟨base', ?_⟩, .inl ?_⟩ <;> rw [step_append hopen]
        · rw [hsamePath]
          exact hstored
        · exact hclosed
  · exact hrecorded (retain_of_not_trims htrims _ _)

/-- **One operation keeps what holds along every run.** -/
theorem Good.step (h : σ.Good) (hcount : σ.acked.length ≤ 2 ^ 63) {op : TrialOp}
    (hfits : ∀ y ∈ op.payload?, Fits y) : (σ.step op).Good := by
  rcases op with ⟨payload, stop⟩ | maxRecords
  · rcases h.handle with hclosed | hholds
    -- a closed handle takes no record, and acknowledges none
    · have hsame : σ.step (.append payload stop) = σ := by
        simp only [Trial.step, LogPartition.append, hclosed, if_true]
      rw [hsame]
      exact h
    · exact good_append hholds h.path_eq (hfits payload rfl) stop
  · obtain ⟨base, hstored⟩ := h.stored
    rw [h.path_eq] at hstored
    exact good_of_holds rfl ⟨base, hstored.openLog hcount maxRecords⟩

/-- **Along every run**, failed trims included, the file holds what was
acknowledged. -/
theorem good_run (key : GoString) (maxRecords : ℤ) (ops : List TrialOp)
    (hfits : ∀ op ∈ ops, ∀ y ∈ op.payload?, Fits y) (hcount : ops.length ≤ 2 ^ 63) :
    (run key maxRecords ops).Good ∧ (run key maxRecords ops).acked.length ≤ ops.length := by
  induction ops using List.reverseRecOn with
  | nil => exact ⟨good_start key maxRecords, Nat.zero_le _⟩
  | append_singleton ops op ih =>
    rw [List.length_append, List.length_singleton] at hcount ⊢
    obtain ⟨hgood, hlen⟩ := ih (fun op' h => hfits op' (by simp [h])) (by omega)
    have hrun : run key maxRecords (ops ++ [op]) = (run key maxRecords ops).step op := by
      simp [run, List.foldl_append]
    have hone := length_acked_step (run key maxRecords ops) op
    rw [hrun]
    exact ⟨hgood.step (by omega) (hfits op (by simp)), by omega⟩

/-- **A trim that fails before the handle is closed leaves no trace.** -/
theorem failureAtomic_of_beforeClose {stop : TrimStop} (hstop : stop.BeforeClose)
    (hholds : ∃ base, σ.partition.Holds σ.dir σ.acked base) {payload : Bytes}
    (hx : Fits payload) (htrims : σ.Trims payload) : FailureAtomic σ payload stop := by
  obtain ⟨base, hholds⟩ := hholds
  obtain ⟨hopen, hrecord⟩ := holds_untrimmed hholds hx
  have happend : σ.partition.append σ.dir (some stop) payload
      = (σ.untrimmed payload, some σ.partition.offset) := by
    rw [append_eq hopen, retain_of_trims htrims.2, trimLocked_of_beforeClose hstop]
  have hacked : (σ.partition.append σ.dir (some stop) payload).2
      = some (σ.acked.length : ℤ) := by
    rw [happend, hholds.offset_eq]
  refine ⟨hacked, ?_, fun later o => by rw [happend]; exact ⟨rfl, rfl⟩⟩
  intro o hlo hhi
  simp only [step, happend] at hlo hhi ⊢
  rw [hrecord.baseOffset_eq] at hlo
  rw [hrecord.offset_eq] at hhi
  have hlt : o.toNat < (σ.acked ++ [payload]).length := by omega
  rw [hrecord.readAt, if_pos ⟨hlo, hhi⟩]
  exact ⟨_, List.getElem?_eq_getElem hlt, List.getElem?_eq_getElem hlt⟩

/-- **A trim that fails later** leaves the new record unreadable. -/
theorem not_failureAtomic {stop : TrimStop} (hstop : ¬ stop.BeforeClose)
    (hholds : ∃ base, σ.partition.Holds σ.dir σ.acked base) {payload : Bytes}
    (hx : Fits payload) (htrims : σ.Trims payload) : ¬ FailureAtomic σ payload stop := by
  obtain ⟨base, hholds⟩ := hholds
  obtain ⟨hopen, hrecord⟩ := holds_untrimmed hholds hx
  obtain ⟨hclosed, hoffset, hbase⟩ := trimLocked_of_not_beforeClose
    (d := (σ.untrimmed payload).1) hstop htrims.2.surplus
  rw [← retain_of_trims htrims.2] at hclosed hoffset hbase
  rw [hrecord.offset_eq, List.length_append, List.length_singleton] at hoffset
  rw [hrecord.baseOffset_eq] at hbase
  -- the offset of the new record is retained
  have hlen := hholds.stored.base_le
  intro hatomic
  have hreads := hatomic.reads σ.acked.length
  rw [step_append hopen] at hreads
  obtain ⟨y, -, hread⟩ := hreads (by simp only; omega) (by simp only; omega)
  simp only [LogPartition.readAt, hclosed, reduceCtorEq] at hread

end Trial

/-! ## Main results -/

/-- **When a failed trim is failure-atomic.** After any run, failed trims
and restarts included, an append whose trim fails leaves no trace of the
trim if and only if the step that fails comes before the handle of the
old log is closed. -/
theorem trim_failureAtomic_iff (key : GoString) (maxRecords : ℤ) (ops : List TrialOp)
    (hfits : ∀ op ∈ ops, ∀ y ∈ op.payload?, Fits y) (hcount : ops.length ≤ 2 ^ 63)
    (payload : Bytes) (hx : Fits payload)
    (htrims : (Trial.run key maxRecords ops).Trims payload) (stop : TrimStop) :
    FailureAtomic (Trial.run key maxRecords ops) payload stop ↔ stop.BeforeClose := by
  obtain ⟨hgood, -⟩ := Trial.good_run key maxRecords ops hfits hcount
  have hholds := hgood.handle.resolve_left htrims.1
  constructor
  · intro hatomic
    by_contra hstop
    exact Trial.not_failureAtomic hstop hholds hx htrims hatomic
  · intro hstop
    exact Trial.failureAtomic_of_beforeClose hstop hholds hx htrims

/-- A partition that retains one record, trimmed by its second append. -/
theorem trim_failureAtomic_copy :
    FailureAtomic (Trial.run [107] 1 [.append [1] none]) [2] .copy :=
  (trim_failureAtomic_iff [107] 1 [.append [1] none] (by decide) (by decide) [2] (by decide)
    (by decide) .copy).mpr trivial

/-- **A rename that fails** leaves the closed handle: the second record has
its offset, and is not there to read. -/
theorem not_trim_failureAtomic :
    (Trial.run [107] 1 [.append [1] none]).Trims [2] ∧
      ¬ FailureAtomic (Trial.run [107] 1 [.append [1] none]) [2] .rename := by
  refine ⟨by decide, fun hatomic => ?_⟩
  obtain ⟨y, -, hread⟩ := hatomic.reads 1 (by decide) (by decide)
  have hnone : ((Trial.run [107] 1 [.append [1] none]).step
      (.append [2] (some .rename))).partition.readAt
      ((Trial.run [107] 1 [.append [1] none]).step (.append [2] (some .rename))).dir 1 = none := by
    decide
  rw [hnone] at hread
  cases hread

end Broker

end TftAnalytics

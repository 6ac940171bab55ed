import TftAnalytics.Broker.Helpers.Partition
import TftAnalytics.Broker.Model.Storage
/-!
# Broker — partitions behind handles

Helper layer. A partition whose handle is on the file that has its name
behaves as the partition log it stands for, through appends and trims that
succeed, and through trims that fail before the old handle is closed. What
a file holds is what opening it brings back.
-/

namespace TftAnalytics

namespace Broker

variable {d : LogDir} {p : LogPartition} {hist : List Bytes} {base f : ℕ} {x : Bytes}

/-! ## Files -/

/-- **A file holds the payloads of a history from `base` on.** -/
structure Stored (file : Bytes) (hist : List Bytes) (base : ℕ) : Prop where
  base_le : base ≤ hist.length
  newest : hist ≠ [] → base < hist.length
  fits : ∀ x ∈ hist, Fits x
  file_eq : file = logBytes base (hist.drop base)

theorem Represents.stored {q : Partition} (h : Represents q hist base []) :
    Stored q.logFile hist base :=
  ⟨h.base_le, h.newest, h.fits, by simpa using h.logFile_eq⟩

theorem stored_nil : Stored [] [] 0 := ⟨le_rfl, fun h => absurd rfl h, by simp, rfl⟩

/-- **Opening a file** brings back what it holds. -/
theorem Stored.openPartition {file : Bytes} (h : Stored file hist base)
    (hlen : hist.length ≤ 2 ^ 63) (maxRecords : ℤ) :
    Represents (openPartition file maxRecords) hist base [] := by
  have hshort : ([] : Bytes).length < headerSize := by simp [headerSize]
  have hopen := Represents.of_logBytes h.base_le h.newest h.fits hlen hshort maxRecords
  rwa [List.append_nil, ← h.file_eq] at hopen

/-! ## Handles -/

/-- **The handle is on the file that has the partition's name.** -/
structure LogPartition.Current (p : LogPartition) (d : LogDir) (f : ℕ) : Prop where
  logFile_eq : p.logFile = some f
  length_eq : (d p.path).length = f + 1

/-- **A partition with its handle represents a history.** -/
def LogPartition.Holds (p : LogPartition) (d : LogDir) (hist : List Bytes) (base : ℕ) : Prop :=
  ∃ f, p.Current d f ∧ Represents (p.view (d.content p.path f)) hist base []

/-- The file that has a name. -/
def LogDir.current (d : LogDir) (path : GoString) : Bytes := (d path).getLastD []

theorem LogPartition.Current.content_eq (h : p.Current d f) :
    d.content p.path f = d.current p.path := by
  rw [LogDir.content, LogDir.current, List.getLastD_eq_getLast?, List.getLast?_eq_getElem?,
    h.length_eq, Nat.add_sub_cancel, List.getD_eq_getElem?_getD]

theorem openFile_spec (d : LogDir) (path : GoString) :
    ((d.openFile path).1 path).length = (d.openFile path).2 + 1 ∧
      (d.openFile path).1.current path = d.current path ∧
      ∀ other, other ≠ path → (d.openFile path).1 other = d other := by
  unfold LogDir.openFile
  split_ifs with h
  · simp only [Function.update_self, LogDir.current, h]
    exact ⟨rfl, rfl, fun other ho => Function.update_of_ne ho ..⟩
  · have hpos := List.length_pos_of_ne_nil h
    exact ⟨by simp only; omega, rfl, fun _ _ => rfl⟩

theorem content_write (h : p.Current d f) (b : Bytes) :
    (d.write p.path f b).content p.path f = d.content p.path f ++ b ∧
      ((d.write p.path f b) p.path).length = f + 1 := by
  have hlen := h.length_eq
  constructor
  · simp only [LogDir.write, LogDir.content, Function.update_self]
    rw [List.getD_eq_getElem?_getD, List.getElem?_set_self (by omega), Option.getD_some]
  · simp only [LogDir.write, Function.update_self, List.length_set, hlen]

theorem rename_openFile (d : LogDir) (b : Bytes) (path : GoString) :
    (d.rename b path).openFile path = (d.rename b path, (d path).length) := by
  unfold LogDir.openFile LogDir.rename
  rw [if_neg (by simp)]
  simp

theorem content_rename (d : LogDir) (b : Bytes) (path : GoString) :
    (d.rename b path).content path (d path).length = b := by
  simp [LogDir.rename, LogDir.content]

/-! ## Operations -/

/-- **The record of an append** through a current handle. -/
theorem LogPartition.Current.record (h : p.Current d f) (x : Bytes) :
    (p.record d f x).2.Current (p.record d f x).1 f ∧
      (p.record d f x).2.view ((p.record d f x).1.content p.path f)
        = { p.view (d.content p.path f) with
            logFile := d.content p.path f ++ recordBytes p.offset x
            index := p.index ++ [(d.content p.path f).length]
            offset := p.offset + 1 } := by
  obtain ⟨hcontent, hlen⟩ := content_write h (recordBytes p.offset x)
  refine ⟨⟨h.logFile_eq, hlen⟩, ?_⟩
  simp only [LogPartition.record, LogPartition.view, hcontent]

/-- **A trim that succeeds** moves the handle to the new log. -/
theorem LogPartition.Current.trimLocked (h : p.Current d f) (drop : ℤ) :
    ∃ f', (p.trimLocked d none drop).2.Current (p.trimLocked d none drop).1 f' ∧
      (p.trimLocked d none drop).2.view ((p.trimLocked d none drop).1.content p.path f')
        = (p.view (d.content p.path f)).trimLocked drop := by
  by_cases hdrop : drop ≤ 0 ∨ drop ≥ p.index.length
  · have hview : (p.view (d.content p.path f)).trimLocked drop = p.view (d.content p.path f) :=
      if_pos hdrop
    rw [hview, LogPartition.trimLocked, if_pos hdrop]
    exact ⟨f, h, rfl⟩
  · set startPos := p.index.getD drop.toNat 0 with hstart
    have hview : (p.view (d.content p.path f)).trimLocked drop
        = { p.view (d.content p.path f) with
            logFile := (d.content p.path f).drop startPos
            index := (p.index.drop drop.toNat).map (· - startPos)
            baseOffset := p.baseOffset + drop } := if_neg hdrop
    rw [hview, LogPartition.trimLocked, if_neg hdrop]
    simp only [h.logFile_eq, rename_openFile, ← hstart]
    refine ⟨(d p.path).length, ⟨rfl, by simp [LogDir.rename]⟩, ?_⟩
    simp only [LogPartition.view, content_rename]

/-- What the retention step drops. -/
def LogPartition.surplus (p : LogPartition) : ℤ :=
  p.index.length - (p.maxRecords - p.maxRecords / 10)

/-- It is some of the records, and never all. -/
theorem LogPartition.Trims.surplus (h : p.Trims) :
    0 < p.surplus ∧ p.surplus < p.index.length := by
  unfold LogPartition.Trims at h
  unfold LogPartition.surplus
  omega

theorem retain_of_trims (h : p.Trims) (d : LogDir) (stop : Option TrimStop) :
    p.retain d stop = p.trimLocked d stop p.surplus := by
  rw [LogPartition.retain, if_pos h]
  exact if_pos h.surplus.1

theorem retain_of_not_trims (h : ¬ p.Trims) (d : LogDir) (stop : Option TrimStop) :
    p.retain d stop = (d, p) := if_neg h

theorem LogPartition.Current.retain (h : p.Current d f) :
    ∃ f', (p.retain d none).2.Current (p.retain d none).1 f' ∧
      (p.retain d none).2.view ((p.retain d none).1.content p.path f')
        = (p.view (d.content p.path f)).retain := by
  by_cases htrims : p.Trims
  · have hview : (p.view (d.content p.path f)).retain
        = (p.view (d.content p.path f)).trimLocked p.surplus :=
      (if_pos htrims).trans (if_pos htrims.surplus.1)
    rw [retain_of_trims htrims, hview]
    exact h.trimLocked _
  · have hview : (p.view (d.content p.path f)).retain = p.view (d.content p.path f) :=
      if_neg htrims
    rw [retain_of_not_trims htrims, hview]
    exact ⟨f, h, rfl⟩

/-- A trim keeps the key, the path and the cap of its partition. -/
theorem kept_trimLocked (p : LogPartition) (d : LogDir) (stop : Option TrimStop) (drop : ℤ) :
    (p.trimLocked d stop drop).2.key = p.key ∧ (p.trimLocked d stop drop).2.path = p.path ∧
      (p.trimLocked d stop drop).2.maxRecords = p.maxRecords := by
  unfold LogPartition.trimLocked
  split_ifs
  · exact ⟨rfl, rfl, rfl⟩
  · cases p.logFile with
    | none => exact ⟨rfl, rfl, rfl⟩
    | some f => cases stop with
      | none => exact ⟨rfl, rfl, rfl⟩
      | some stop => cases stop <;> exact ⟨rfl, rfl, rfl⟩

/-- **A trim that fails before the handle is closed** changes nothing. -/
theorem trimLocked_of_beforeClose {stop : TrimStop} (hstop : stop.BeforeClose) (p : LogPartition)
    (d : LogDir) (drop : ℤ) : p.trimLocked d (some stop) drop = (d, p) := by
  unfold LogPartition.trimLocked
  split_ifs
  · rfl
  · cases p.logFile with
    | none => rfl
    | some f => cases stop <;> first | rfl | exact hstop.elim

/-- **A trim that fails later** leaves a closed handle. -/
theorem trimLocked_of_not_beforeClose {stop : TrimStop} (hstop : ¬ stop.BeforeClose)
    {drop : ℤ} (hdrop : 0 < drop ∧ drop < p.index.length) :
    (p.trimLocked d (some stop) drop).2.logFile = none ∧
      (p.trimLocked d (some stop) drop).2.offset = p.offset ∧
      (p.trimLocked d (some stop) drop).2.baseOffset = p.baseOffset := by
  unfold LogPartition.trimLocked
  rw [if_neg (by omega)]
  cases hf : p.logFile with
  | none => exact ⟨hf, rfl, rfl⟩
  | some f => cases stop <;> first | exact ⟨rfl, rfl, rfl⟩ | exact absurd trivial hstop

/-- **An append whose trim does not fail**, through a current handle, is an
append to the log. -/
theorem LogPartition.Current.append (h : p.Current d f) (x : Bytes) :
    (p.append d none x).2 = some p.offset ∧
      ∃ f', (p.append d none x).1.2.Current (p.append d none x).1.1 f' ∧
        (p.append d none x).1.2.view ((p.append d none x).1.1.content p.path f')
          = ((p.view (d.content p.path f)).append x).1 := by
  obtain ⟨hcurrent, hview⟩ := h.record x
  obtain ⟨f', hcurrent', hview'⟩ := hcurrent.retain
  have hpath : (p.record d f x).2.path = p.path := rfl
  rw [hpath, hview] at hview'
  simp only [LogPartition.append, h.logFile_eq]
  exact ⟨trivial, f', hcurrent', hview'⟩

/-- So does an append. -/
theorem kept_append (p : LogPartition) (d : LogDir) (stop : Option TrimStop) (x : Bytes) :
    (p.append d stop x).1.2.key = p.key ∧ (p.append d stop x).1.2.path = p.path ∧
      (p.append d stop x).1.2.maxRecords = p.maxRecords := by
  unfold LogPartition.append
  cases p.logFile with
  | none => exact ⟨rfl, rfl, rfl⟩
  | some f =>
    by_cases h : (p.record d f x).2.Trims
    · simp only [retain_of_trims h]
      exact kept_trimLocked ..
    · simp only [retain_of_not_trims h]
      exact ⟨rfl, rfl, rfl⟩

/-- **An append that succeeds** adds its payload to the history, and drops
nothing below the cap. -/
theorem LogPartition.Holds.append (h : p.Holds d hist base) (hx : Fits x) :
    (p.append d none x).2 = some (hist.length : ℤ) ∧
      ∃ base', base ≤ base' ∧
        (p.append d none x).1.2.Holds (p.append d none x).1.1 (hist ++ [x]) base' ∧
        (0 < p.maxRecords → (hist.length : ℤ) + 1 - base' ≤ p.maxRecords) ∧
        (p.maxRecords ≤ 0 ∨ (hist.length : ℤ) + 1 - base ≤ p.maxRecords → base' = base) := by
  obtain ⟨f, hcurrent, hrep⟩ := h
  obtain ⟨hoff, f', hcurrent', hview⟩ := hcurrent.append x
  obtain ⟨hnext, base', hle, hrep', hcap⟩ := hrep.append hx
  have hpath := (kept_append p d none x).2.1
  refine ⟨hoff.trans (congrArg some hnext), ?_⟩
  by_cases hbelow : p.maxRecords ≤ 0 ∨ (hist.length : ℤ) + 1 - base ≤ p.maxRecords
  · refine ⟨base, le_rfl, ⟨f', hcurrent', ?_⟩, by omega, fun _ => rfl⟩
    rw [hpath, hview]
    exact hrep.append_of_le hx hbelow
  · refine ⟨base', hle, ⟨f', hcurrent', ?_⟩, hcap, fun h => absurd h hbelow⟩
    rw [hpath, hview]
    exact hrep'

/-- **Every retained offset reads back its payload** through a current
handle. -/
theorem LogPartition.Holds.readAt (h : p.Holds d hist base) (o : ℤ) :
    p.readAt d o = if (base : ℤ) ≤ o ∧ o < hist.length then hist[o.toNat]? else none := by
  obtain ⟨f, hcurrent, hrep⟩ := h
  simp only [LogPartition.readAt, hcurrent.logFile_eq]
  exact hrep.readAt o

theorem LogPartition.Holds.offset_eq (h : p.Holds d hist base) : p.offset = hist.length := by
  obtain ⟨f, -, hrep⟩ := h
  exact hrep.offset_eq

theorem LogPartition.Holds.baseOffset_eq (h : p.Holds d hist base) : p.baseOffset = base := by
  obtain ⟨f, -, hrep⟩ := h
  exact hrep.baseOffset_eq

/-- What the file with the partition's name holds then. -/
theorem LogPartition.Holds.stored (h : p.Holds d hist base) :
    Stored (d.current p.path) hist base := by
  obtain ⟨f, hcurrent, hrep⟩ := h
  rw [← hcurrent.content_eq]
  exact hrep.stored

/-- **Opening a partition** on a file brings back what the file holds. -/
theorem Stored.openLog {key : GoString} (h : Stored (d.current (logName key)) hist base)
    (hlen : hist.length ≤ 2 ^ 63) (maxRecords : ℤ) :
    (d.openPartition key maxRecords).2.Holds (d.openPartition key maxRecords).1 hist base := by
  obtain ⟨hopen, hcurrent, -⟩ := openFile_spec d (logName key)
  have hcur : (d.openPartition key maxRecords).2.Current (d.openPartition key maxRecords).1
      (d.openFile (logName key)).2 := ⟨rfl, hopen⟩
  refine ⟨_, hcur, ?_⟩
  have hrep := h.openPartition hlen maxRecords
  rw [← hcurrent] at hrep
  have hcontent : (d.openPartition key maxRecords).1.content (logName key)
      (d.openFile (logName key)).2 = (d.openFile (logName key)).1.current (logName key) :=
    hcur.content_eq
  have hview : (d.openPartition key maxRecords).2.view
        ((d.openPartition key maxRecords).1.content (logName key) (d.openFile (logName key)).2)
      = Broker.openPartition ((d.openFile (logName key)).1.current (logName key)) maxRecords := by
    rw [hcontent]
    simp only [LogDir.openPartition, LogPartition.view]
    rw [← hcontent]
    rfl
  have hpath : (d.openPartition key maxRecords).2.path = logName key := rfl
  rw [hpath, hview]
  exact hrep

end Broker

end TftAnalytics

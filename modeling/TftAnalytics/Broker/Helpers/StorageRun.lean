import TftAnalytics.Broker.Helpers.Storage
/-!
# Broker — the partitions of one data directory

Helper layer. Each partition a broker has opened goes through the file
that `sanitize` makes of its key, and through no other one. So what is
published under a key leaves every partition alone whose file has another
name, and two brokers that agree on a file go on agreeing on it.
-/

namespace TftAnalytics

namespace Broker

variable {d d' : LogDir} {p : LogPartition} {x : Bytes}

/-! ## Other files -/

theorem openPartition_of_ne {key other : GoString} (h : other ≠ logName key) (d : LogDir)
    (maxRecords : ℤ) : (d.openPartition key maxRecords).1 other = d other :=
  (openFile_spec d (logName key)).2.2 other h

theorem trimLocked_of_ne {other : GoString} (h : other ≠ p.path) (d : LogDir)
    (stop : Option TrimStop) (drop : ℤ) : (p.trimLocked d stop drop).1 other = d other := by
  have hrename : ∀ b, (d.rename b p.path) other = d other := fun b => Function.update_of_ne h ..
  unfold LogPartition.trimLocked
  split_ifs
  · rfl
  · cases p.logFile with
    | none => rfl
    | some f => cases stop with
      | none => simp only [rename_openFile, hrename]
      | some stop => cases stop <;> first | rfl | exact hrename _

/-- **An append touches no file but its own.** -/
theorem append_of_ne {other : GoString} (h : other ≠ p.path) (d : LogDir)
    (stop : Option TrimStop) (x : Bytes) : (p.append d stop x).1.1 other = d other := by
  unfold LogPartition.append
  cases p.logFile with
  | none => rfl
  | some f =>
    have hwrite : (p.record d f x).1 other = d other := Function.update_of_ne h ..
    by_cases htrims : (p.record d f x).2.Trims
    · simp only [retain_of_trims htrims]
      exact (trimLocked_of_ne (p := (p.record d f x).2) h ..).trans hwrite
    · simp only [retain_of_not_trims htrims]
      exact hwrite

/-! ## The same file -/

theorem content_congr {path : GoString} (h : d path = d' path) (f : ℕ) :
    d.content path f = d'.content path f := by
  rw [LogDir.content, LogDir.content, h]

theorem openPartition_congr {key : GoString} (h : d (logName key) = d' (logName key))
    (maxRecords : ℤ) :
    (d.openPartition key maxRecords).2 = (d'.openPartition key maxRecords).2 ∧
      (d.openPartition key maxRecords).1 (logName key)
        = (d'.openPartition key maxRecords).1 (logName key) := by
  have hopen : (d.openFile (logName key)).2 = (d'.openFile (logName key)).2 ∧
      (d.openFile (logName key)).1 (logName key) = (d'.openFile (logName key)).1 (logName key) := by
    unfold LogDir.openFile
    rw [h]
    split_ifs
    · exact ⟨rfl, by simp only [Function.update_self]⟩
    · exact ⟨rfl, h⟩
  refine ⟨?_, hopen.2⟩
  simp only [LogDir.openPartition, content_congr hopen.2, hopen.1]

theorem trimLocked_congr (h : d p.path = d' p.path) (stop : Option TrimStop) (drop : ℤ) :
    (p.trimLocked d stop drop).2 = (p.trimLocked d' stop drop).2 ∧
      (p.trimLocked d stop drop).1 p.path = (p.trimLocked d' stop drop).1 p.path := by
  have hrename : ∀ b, (d.rename b p.path) p.path = (d'.rename b p.path) p.path := by
    intro b
    simp only [LogDir.rename, Function.update_self, h]
  unfold LogPartition.trimLocked
  split_ifs
  · exact ⟨rfl, h⟩
  · cases p.logFile with
    | none => exact ⟨rfl, h⟩
    | some f =>
      simp only [content_congr h]
      cases stop with
      | none =>
        simp only [rename_openFile, h]
        exact ⟨trivial, hrename _⟩
      | some stop => cases stop <;> first | exact ⟨rfl, h⟩ | exact ⟨rfl, hrename _⟩

/-- **An append depends on its own file only.** -/
theorem append_congr (h : d p.path = d' p.path) (stop : Option TrimStop) (x : Bytes) :
    (p.append d stop x).2 = (p.append d' stop x).2 ∧
      (p.append d stop x).1.2 = (p.append d' stop x).1.2 ∧
      (p.append d stop x).1.1 p.path = (p.append d' stop x).1.1 p.path := by
  unfold LogPartition.append
  cases p.logFile with
  | none => exact ⟨rfl, rfl, h⟩
  | some f =>
    have hpartition : (p.record d f x).2 = (p.record d' f x).2 := by
      simp only [LogPartition.record, content_congr h]
    have hdir : (p.record d f x).1 p.path = (p.record d' f x).1 p.path := by
      simp only [LogPartition.record, LogDir.write, Function.update_self, content_congr h, h]
    simp only [hpartition]
    by_cases htrims : (p.record d' f x).2.Trims
    · simp only [retain_of_trims htrims]
      exact ⟨trivial, trimLocked_congr (p := (p.record d' f x).2) hdir stop _⟩
    · simp only [retain_of_not_trims htrims]
      exact ⟨trivial, trivial, hdir⟩

theorem readAt_congr (h : d p.path = d' p.path) (o : ℤ) : p.readAt d o = p.readAt d' o := by
  simp only [LogPartition.readAt, content_congr h]

namespace Storage

variable {s s' : Storage} {key path : GoString}

/-! ## Files and keys -/

/-- **Every open partition goes through the file named after its key.** -/
def Named (s : Storage) : Prop :=
  ∀ key p, s.partitions.lookup key = some p → p.path = logName key ∧ p.maxRecords = s.maxRecords

theorem named_new (d : LogDir) (maxRecords : ℤ) : (new d maxRecords).Named := by
  intro key p hp
  cases hp

theorem getPartition_of_lookup {p : LogPartition} (h : s.partitions.lookup key = some p) :
    s.getPartition key = (s, p) := by
  simp only [getPartition, h]

theorem getPartition_of_lookup_none (h : s.partitions.lookup key = none) :
    s.getPartition key
      = ({ s with
            dir := (s.dir.openPartition key s.maxRecords).1
            partitions := s.partitions.insert key (s.dir.openPartition key s.maxRecords).2 },
        (s.dir.openPartition key s.maxRecords).2) := by
  simp only [getPartition, h]

/-- **What `getPartition` gives** goes through the file of the key, and is
there from then on. -/
theorem Named.getPartition (h : s.Named) (key : GoString) :
    (s.getPartition key).2.path = logName key ∧
      (s.getPartition key).2.maxRecords = s.maxRecords ∧
      (s.getPartition key).1.maxRecords = s.maxRecords ∧
      (s.getPartition key).1.partitions.lookup key = some (s.getPartition key).2 := by
  rcases hp : s.partitions.lookup key with - | p
  · rw [getPartition_of_lookup_none hp]
    exact ⟨rfl, rfl, rfl, AList.lookup_insert _⟩
  · rw [getPartition_of_lookup hp]
    exact ⟨(h key p hp).1, (h key p hp).2, rfl, hp⟩

/-- Opening a partition, and publishing to it, leave the other ones. -/
theorem lookup_getPartition {other : GoString} (h : other ≠ key) :
    (s.getPartition key).1.partitions.lookup other = s.partitions.lookup other := by
  rcases hp : s.partitions.lookup key with - | p
  · rw [getPartition_of_lookup_none hp]
    exact AList.lookup_insert_ne h
  · rw [getPartition_of_lookup hp]

theorem lookup_publish {other : GoString} (h : other ≠ key) (stop : Option TrimStop) (x : Bytes) :
    (s.publish key stop x).1.partitions.lookup other = s.partitions.lookup other :=
  (AList.lookup_insert_ne h).trans (lookup_getPartition h)

/-- Two brokers agree on a file: on its bytes, and on the partitions that
go through it. -/
structure Agree (s s' : Storage) (path : GoString) : Prop where
  maxRecords_eq : s.maxRecords = s'.maxRecords
  lookup_eq : ∀ key, logName key = path → s.partitions.lookup key = s'.partitions.lookup key
  file_eq : s.dir path = s'.dir path

theorem Agree.refl (s : Storage) (path : GoString) : s.Agree s path := ⟨rfl, fun _ _ => rfl, rfl⟩

theorem Agree.symm (h : s.Agree s' path) : s'.Agree s path :=
  ⟨h.maxRecords_eq.symm, fun key hkey => (h.lookup_eq key hkey).symm, h.file_eq.symm⟩

theorem Agree.trans {s'' : Storage} (h : s.Agree s' path) (h' : s'.Agree s'' path) :
    s.Agree s'' path :=
  ⟨h.maxRecords_eq.trans h'.maxRecords_eq,
    fun key hkey => (h.lookup_eq key hkey).trans (h'.lookup_eq key hkey),
    h.file_eq.trans h'.file_eq⟩

/-- **Opening a partition** leaves the other files alone. -/
theorem agree_getPartition (h : path ≠ logName key) : (s.getPartition key).1.Agree s path := by
  have hlookup : ∀ other, logName other = path →
      (s.getPartition key).1.partitions.lookup other = s.partitions.lookup other := by
    rintro other rfl
    exact lookup_getPartition fun heq => h (congrArg logName heq)
  rcases hp : s.partitions.lookup key with - | p
  · rw [getPartition_of_lookup_none hp] at hlookup ⊢
    exact ⟨rfl, hlookup, openPartition_of_ne h s.dir s.maxRecords⟩
  · rw [getPartition_of_lookup hp]
    exact .refl ..

/-- **So does a publish.** -/
theorem agree_publish (hnamed : s.Named) (h : path ≠ logName key) (stop : Option TrimStop)
    (x : Bytes) : (s.publish key stop x).1.Agree s path := by
  obtain ⟨hpath, -, hmax, -⟩ := hnamed.getPartition key
  refine ⟨hmax, ?_, ?_⟩
  · rintro other rfl
    exact lookup_publish (fun heq => h (congrArg logName heq)) stop x
  · rw [← (agree_getPartition (s := s) h).file_eq]
    exact append_of_ne (by rw [hpath]; exact h) ..

/-- Opening keeps the names. -/
theorem Named.getPartition_fst (h : s.Named) (key : GoString) : (s.getPartition key).1.Named := by
  rcases hp : s.partitions.lookup key with - | p
  · rw [getPartition_of_lookup_none hp]
    intro key' p' hp'
    by_cases hkey : key' = key
    · subst hkey
      rw [AList.lookup_insert] at hp'
      obtain rfl := Option.some.inj hp'
      exact ⟨rfl, rfl⟩
    · rw [AList.lookup_insert_ne hkey] at hp'
      exact h key' p' hp'
  · rw [getPartition_of_lookup hp]
    exact h

/-- So does publishing. -/
theorem Named.publish (h : s.Named) (key : GoString) (stop : Option TrimStop) (x : Bytes) :
    (s.publish key stop x).1.Named := by
  obtain ⟨hpath, hcap, hmax, -⟩ := h.getPartition key
  obtain ⟨-, hpath', hcap'⟩ := kept_append (s.getPartition key).2 (s.getPartition key).1.dir stop x
  intro key' p' hp'
  by_cases hkey : key' = key
  · subst hkey
    have hp'' := (AList.lookup_insert _).symm.trans hp'
    obtain rfl := Option.some.inj hp''
    exact ⟨hpath'.trans hpath, hcap'.trans (hcap.trans hmax.symm)⟩
  · have hp'' := (AList.lookup_insert_ne hkey).symm.trans hp'
    exact h.getPartition_fst key key' p' hp''

theorem Named.step (h : s.Named) (op : StorageOp) : (s.step op).Named := by
  rcases op with ⟨stream, stop, payload⟩ | stream | maxRecords
  · exact h.publish stream.key stop payload
  · exact h.getPartition_fst stream.key
  · exact named_new s.dir maxRecords

/-- **Along every run** partitions go through the files of their keys. -/
theorem named_run (maxRecords : ℤ) (ops : List StorageOp) : (run maxRecords ops).Named := by
  unfold run
  induction ops using List.reverseRecOn with
  | nil => exact named_new LogDir.empty maxRecords
  | append_singleton ops op ih =>
    rw [List.foldl_append]
    exact ih.step op

/-! ## Agreement -/

/-- Brokers that agree on a file open the same partitions on it. -/
theorem Agree.getPartition (h : s.Agree s' path) (hkey : logName key = path) :
    (s.getPartition key).2 = (s'.getPartition key).2 ∧
      (s.getPartition key).1.Agree (s'.getPartition key).1 path := by
  have hlookup := h.lookup_eq key hkey
  rcases hp : s'.partitions.lookup key with - | p
  · subst hkey
    obtain ⟨hopen, hfile⟩ := openPartition_congr h.file_eq s.maxRecords
    rw [getPartition_of_lookup_none (hlookup.trans hp), getPartition_of_lookup_none hp,
      ← h.maxRecords_eq]
    refine ⟨hopen, rfl, fun other hother => ?_, hfile⟩
    by_cases heq : other = key
    · subst heq
      simp only [AList.lookup_insert, hopen]
    · simp only [AList.lookup_insert_ne heq, h.lookup_eq other hother]
  · rw [getPartition_of_lookup (hlookup.trans hp), getPartition_of_lookup hp]
    exact ⟨rfl, h⟩

/-- And a publish does the same at both. -/
theorem Agree.publish (h : s.Agree s' path) (hnamed : s.Named) (hkey : logName key = path)
    (stop : Option TrimStop) (x : Bytes) :
    (s.publish key stop x).1.Agree (s'.publish key stop x).1 path := by
  obtain ⟨hgot, hagree⟩ := h.getPartition hkey
  have hpath := (hnamed.getPartition key).1.trans hkey
  have hfile := hagree.file_eq
  rw [← hpath] at hfile
  obtain ⟨-, hpartition, hdir⟩ := append_congr hfile stop x
  rw [hpath] at hdir
  simp only [Storage.publish, ← hgot]
  refine ⟨hagree.maxRecords_eq, fun other hother => ?_, hdir⟩
  by_cases heq : other = key
  · subst heq
    simp only [AList.lookup_insert, hpartition]
  · simp only [AList.lookup_insert_ne heq, hagree.lookup_eq other hother]

/-- **Brokers that agree on a file serve the same from it.** -/
theorem Agree.readAt (h : s.Agree s' (logName key)) (hnamed : s.Named) (o : ℤ) :
    s.readAt key o = s'.readAt key o := by
  obtain ⟨hgot, hagree⟩ := h.getPartition rfl
  have hfile := hagree.file_eq
  rw [← (hnamed.getPartition key).1] at hfile
  simp only [Storage.readAt, ← hgot]
  exact readAt_congr hfile o

/-- **One operation keeps the agreement of two brokers.** -/
theorem Agree.step (h : s.Agree s' path) (hnamed : s.Named) (hnamed' : s'.Named)
    (op : StorageOp) : (s.step op).Agree (s'.step op) path := by
  rcases op with ⟨stream, stop, payload⟩ | stream | maxRecords
  · by_cases hkey : logName stream.key = path
    · exact h.publish hnamed hkey stop payload
    · have hne : path ≠ logName stream.key := Ne.symm hkey
      exact ((agree_publish hnamed hne stop payload).trans h).trans
        (agree_publish hnamed' hne stop payload).symm
  · by_cases hkey : logName stream.key = path
    · exact (h.getPartition hkey).2
    · have hne : path ≠ logName stream.key := Ne.symm hkey
      exact ((agree_getPartition hne).trans h).trans (agree_getPartition hne).symm
  · exact ⟨rfl, fun _ _ => rfl, h.file_eq⟩

/-! ## What is served -/

variable {hist : List Bytes} {base : ℕ}

/-- **A broker serves a history** under a key, from `base` on. -/
def Serves (s : Storage) (key : GoString) (hist : List Bytes) (base : ℕ) : Prop :=
  (s.getPartition key).2.Holds (s.getPartition key).1.dir hist base

/-- A broker that does not hold the partition serves nothing. -/
theorem serves_nil (hkey : s.partitions.lookup key = none) (hfile : s.dir (logName key) = []) :
    s.Serves key [] 0 := by
  have hstored : Stored (s.dir.current (logName key)) [] 0 := by
    rw [LogDir.current, hfile]
    exact stored_nil
  rw [Serves, getPartition_of_lookup_none hkey]
  exact hstored.openLog (by simp) s.maxRecords

theorem Serves.readAt (h : s.Serves key hist base) (o : ℤ) :
    s.readAt key o = if (base : ℤ) ≤ o ∧ o < hist.length then hist[o.toNat]? else none :=
  LogPartition.Holds.readAt h o

/-- **A publish adds its payload** to what is served. -/
theorem Serves.publish (h : s.Serves key hist base) (hnamed : s.Named) (hx : Fits x) :
    ∃ base', base ≤ base' ∧ (s.publish key none x).1.Serves key (hist ++ [x]) base' ∧
      (0 < s.maxRecords → (hist.length : ℤ) + 1 - base' ≤ s.maxRecords) ∧
      (s.maxRecords ≤ 0 ∨ (hist.length : ℤ) + 1 - base ≤ s.maxRecords → base' = base) := by
  obtain ⟨-, hcap, -, -⟩ := hnamed.getPartition key
  obtain ⟨-, base', hle, hholds, hlim, hsame⟩ := LogPartition.Holds.append h hx
  rw [hcap] at hlim hsame
  refine ⟨base', hle, ?_, hlim, hsame⟩
  have hlookup : (s.publish key none x).1.partitions.lookup key
      = some ((s.getPartition key).2.append (s.getPartition key).1.dir none x).1.2 :=
    AList.lookup_insert _
  rw [Serves, getPartition_of_lookup hlookup]
  exact hholds

theorem maxRecords_publish (hnamed : s.Named) (key : GoString) (stop : Option TrimStop)
    (x : Bytes) : (s.publish key stop x).1.maxRecords = s.maxRecords :=
  (hnamed.getPartition key).2.2.1

end Storage

end Broker

end TftAnalytics

import TftAnalytics.Broker.Model.Partition
import Mathlib.Tactic.Linarith
/-!
# Broker — the shape of a partition log

Helper layer. A log written by `Append` is the concatenation of its
records at consecutive offsets (`logBytes`), and its index the positions
they start at (`starts`). `Represents` ties a partition to the payloads
it was ever given: what the file, the index and the two offsets are, up
to a tail too short to hold a header. Each operation of the partition
has one lemma saying what it does to the representation.
-/

namespace TftAnalytics

namespace Broker

/-- The records of consecutive payloads from offset `o` on. -/
def logBytes : ℕ → List Bytes → Bytes
  | _, [] => []
  | o, x :: xs => recordBytes o x ++ logBytes (o + 1) xs

/-- The positions records of these payloads start at, the first at `pos`. -/
def starts : ℕ → List Bytes → List ℕ
  | _, [] => []
  | pos, x :: xs => pos :: starts (pos + headerSize + x.length) xs

/-- The headers of consecutive payloads from offset `o` on. -/
def headersOf : ℕ → List Bytes → List RecordHeader
  | _, [] => []
  | o, x :: xs => ⟨o, x.length⟩ :: headersOf (o + 1) xs

/-- A payload whose length the record's length field holds. -/
def Fits (x : Bytes) : Prop := x.length < 2 ^ 32

instance (x : Bytes) : Decidable (Fits x) := inferInstanceAs (Decidable (_ < _))

/-! ## Records -/

@[simp] theorem length_recordBytes (off : ℤ) (x : Bytes) :
    (recordBytes off x).length = headerSize + x.length := by
  simp [recordBytes, headerSize]; omega

theorem uint64_natCast {o : ℕ} (h : o < 2 ^ 64) : uint64 o = o := by
  unfold uint64
  omega

theorem int64_natCast {o : ℕ} (h : o < 2 ^ 63) : int64 o = o := by
  unfold int64
  apply Int.bmod_eq_of_le
  · omega
  · omega

/-- **The header of a record**, whatever is behind it. -/
theorem readHeader_append {o : ℕ} {x : Bytes} (ho : o < 2 ^ 63) (hx : Fits x) (rest : Bytes) :
    readHeader (beBytes 8 (uint64 o) ++ beBytes 4 x.length ++ rest)
      = some (⟨o, x.length⟩, rest.drop x.length) := by
  have hoff : int64 (beNat (beBytes 8 (uint64 o))) = o := by
    rw [uint64_natCast (by omega), beNat_beBytes_of_lt (by omega), int64_natCast ho]
  have hlen : beNat (beBytes 4 x.length) = x.length :=
    beNat_beBytes_of_lt (by simpa [Fits] using hx)
  rw [readHeader, readFull_append (by simp [headerSize])]
  simp [hoff, hlen]

/-- **A whole record is read back by its header.** -/
theorem chunk_recordBytes {o : ℕ} {x : Bytes} (ho : o < 2 ^ 63) (hx : Fits x) :
    headers.Chunk (recordBytes o x) ⟨o, x.length⟩ := by
  intro rest
  change readHeader (recordBytes o x ++ rest) = _
  rw [recordBytes, List.append_assoc, readHeader_append ho hx, List.drop_left]

/-- Fewer bytes than a header hold no record. -/
theorem readHeader_short {t : Bytes} (h : t.length < headerSize) : headers.dec t = none := by
  change readHeader t = none
  rw [readHeader, readFull_eq_none h]

/-! ## Logs -/

@[simp] theorem length_starts (pos : ℕ) (xs : List Bytes) : (starts pos xs).length = xs.length := by
  induction xs generalizing pos with
  | nil => rfl
  | cons x xs ih => simp [starts, ih]

theorem logBytes_append (o : ℕ) (xs ys : List Bytes) :
    logBytes o (xs ++ ys) = logBytes o xs ++ logBytes (o + xs.length) ys := by
  induction xs generalizing o with
  | nil => simp [logBytes]
  | cons x xs ih => simp [logBytes, ih, Nat.add_assoc, Nat.add_comm 1]

theorem starts_append (pos o : ℕ) (xs ys : List Bytes) :
    starts pos (xs ++ ys) = starts pos xs ++ starts (pos + (logBytes o xs).length) ys := by
  induction xs generalizing pos o with
  | nil => simp [starts, logBytes]
  | cons x xs ih =>
    simp only [List.cons_append, starts, ih _ (o + 1), logBytes, List.length_append,
      length_recordBytes]
    congr 3
    omega

theorem starts_shift (pos k : ℕ) (xs : List Bytes) :
    (starts (pos + k) xs).map (· - k) = starts pos xs := by
  induction xs generalizing pos with
  | nil => rfl
  | cons x xs ih =>
    have h := ih (pos + headerSize + x.length)
    rw [show pos + headerSize + x.length + k = pos + k + headerSize + x.length by omega] at h
    simp [starts, h]

theorem starts_drop (pos o d : ℕ) (xs : List Bytes) :
    (starts pos xs).drop d = starts (pos + (logBytes o (xs.take d)).length) (xs.drop d) := by
  rcases Nat.lt_or_ge xs.length d with h | h
  · rw [List.drop_of_length_le (by simp; omega), List.drop_of_length_le (by omega)]
    rfl
  · have hsplit := starts_append pos o (xs.take d) (xs.drop d)
    rw [List.take_append_drop] at hsplit
    rw [hsplit, List.drop_left' (by simp [h])]

/-- A record starts behind the records before it. -/
theorem getElem?_starts (o : ℕ) {xs : List Bytes} {i : ℕ} (hi : i < xs.length) :
    (starts 0 xs)[i]? = some (logBytes o (xs.take i)).length := by
  have h := starts_drop 0 o i xs
  rw [← List.head?_drop, h, List.drop_eq_getElem_cons hi]
  simp [starts]

/-- The file from the start of a record on. -/
theorem drop_logBytes {o i : ℕ} {xs : List Bytes} (hi : i < xs.length) (tail : Bytes) :
    (logBytes o xs ++ tail).drop (logBytes o (xs.take i)).length
      = recordBytes (o + i : ℕ) xs[i] ++ (logBytes (o + i + 1) (xs.drop (i + 1)) ++ tail) := by
  have hsplit : logBytes o xs
      = logBytes o (xs.take i) ++ logBytes (o + i) (xs.drop i) := by
    conv_lhs => rw [← List.take_append_drop i xs]
    rw [logBytes_append, List.length_take, Nat.min_eq_left (by omega)]
  rw [hsplit, List.append_assoc, List.drop_left, List.drop_eq_getElem_cons hi, logBytes,
    List.append_assoc]

theorem headersOf_append (o : ℕ) (xs ys : List Bytes) :
    headersOf o (xs ++ ys) = headersOf o xs ++ headersOf (o + xs.length) ys := by
  induction xs generalizing o with
  | nil => simp [headersOf]
  | cons x xs ih => simp [headersOf, ih, Nat.add_assoc, Nat.add_comm 1]

/-- The headers of a log, and then those of what follows it. -/
theorem scan_logBytes {o : ℕ} {xs : List Bytes} (ho : o + xs.length ≤ 2 ^ 63)
    (hx : ∀ x ∈ xs, Fits x) (t : Bytes) :
    headers.scan (logBytes o xs ++ t)
      = (headersOf o xs ++ (headers.scan t).1, (headers.scan t).2) := by
  induction xs generalizing o with
  | nil => rfl
  | cons x xs ih =>
    simp only [List.length_cons] at ho
    have hchunk := chunk_recordBytes (o := o) (by omega) (hx x (by simp))
      (logBytes (o + 1) xs ++ t)
    rw [logBytes, List.append_assoc, headers.scan_of_some hchunk,
      ih (by omega) fun y hy => hx y (by simp [hy])]
    rfl

/-! ## Recovery -/

/-- Past the first record, `recover` counts and positions. -/
theorem foldl_step (o : ℕ) (xs : List Bytes) (st : Recovery) (hf : st.first = false) :
    (headersOf o xs).foldl Recovery.step st =
      { st with
        pos := st.pos + (logBytes o xs).length
        offset := st.offset + xs.length
        index := st.index ++ starts st.pos xs } := by
  induction xs generalizing o st with
  | nil => simp [headersOf, logBytes, starts]
  | cons x xs ih =>
    rw [headersOf, List.foldl_cons, ih _ _ rfl]
    simp only [Recovery.step, hf, Bool.false_eq_true, if_false, logBytes, List.length_append,
      length_recordBytes, starts, List.append_assoc, List.singleton_append, List.length_cons]
    congr 1 <;> push_cast <;> omega

/-- **What `recover`'s loop leaves**, over the headers of a log: the base
of the first record, the next offset by counting, the index by position. -/
theorem foldl_headersOf {o : ℕ} {xs : List Bytes} (hne : xs = [] → o = 0) :
    let st := (headersOf o xs).foldl Recovery.step {}
    st.baseOffset = o ∧ st.offset = (o + xs.length : ℕ) ∧ st.index = starts 0 xs := by
  cases xs with
  | nil =>
    obtain rfl := hne rfl
    exact ⟨rfl, rfl, rfl⟩
  | cons x xs =>
    simp only [headersOf, List.foldl_cons]
    rw [foldl_step _ _ _ rfl]
    simp only [Recovery.step, if_true, List.nil_append, starts, List.length_cons]
    refine ⟨trivial, ?_, by simp⟩
    push_cast
    omega

/-- **`openPartition` on a log of whole records**; a torn header behind
them is not seen. -/
theorem openPartition_logBytes {o : ℕ} {xs : List Bytes} (ho : o + xs.length ≤ 2 ^ 63)
    (hx : ∀ x ∈ xs, Fits x) (hne : xs = [] → o = 0) {tail : Bytes}
    (ht : tail.length < headerSize) (maxRecords : ℤ) :
    openPartition (logBytes o xs ++ tail) maxRecords =
      ⟨logBytes o xs ++ tail, starts 0 xs, (o + xs.length : ℕ), o, maxRecords⟩ := by
  obtain ⟨hbase, hoffset, hindex⟩ := foldl_headersOf hne
  rw [openPartition, scan_logBytes ho hx, headers.scan_of_none (readHeader_short ht),
    List.append_nil, hbase, hoffset, hindex]

/-! ## What a partition stands for -/

/-- **A partition represents the payloads it was given**: `hist` lists
them all, the records from `base` on are in the file, at the positions
the index holds, and `tail` is what follows the last of them. -/
structure Represents (p : Partition) (hist : List Bytes) (base : ℕ) (tail : Bytes) : Prop where
  base_le : base ≤ hist.length
  newest : hist ≠ [] → base < hist.length
  fits : ∀ x ∈ hist, Fits x
  offset_eq : p.offset = hist.length
  baseOffset_eq : p.baseOffset = base
  logFile_eq : p.logFile = logBytes base (hist.drop base) ++ tail
  index_eq : p.index = starts 0 (hist.drop base)

namespace Represents

variable {p : Partition} {hist : List Bytes} {base : ℕ} {tail : Bytes}

theorem length_index (h : Represents p hist base tail) :
    (p.index.length : ℤ) = hist.length - base := by
  have := h.base_le
  rw [h.index_eq, length_starts, List.length_drop]
  omega

/-- A new log file represents the empty history. -/
theorem openPartition_empty (maxRecords : ℤ) :
    Represents (openPartition [] maxRecords) [] 0 [] :=
  ⟨le_rfl, fun h => absurd rfl h, by simp, rfl, rfl, rfl, rfl⟩

/-- **A file that holds the records from `base` on** is opened as a
partition that represents them. -/
theorem of_logBytes (hbase : base ≤ hist.length) (hnewest : hist ≠ [] → base < hist.length)
    (hfits : ∀ x ∈ hist, Fits x) (hlen : hist.length ≤ 2 ^ 63) (ht : tail.length < headerSize)
    (maxRecords : ℤ) :
    Represents (Broker.openPartition (logBytes base (hist.drop base) ++ tail) maxRecords)
      hist base tail := by
  have hcount : base + (hist.drop base).length = hist.length := by
    rw [List.length_drop]
    omega
  have hne : hist.drop base = [] → base = 0 := by
    intro hnil
    have hle := List.drop_eq_nil_iff.mp hnil
    cases hist with
    | nil => simpa using hbase
    | cons x xs =>
      have := hnewest (by simp)
      omega
  rw [openPartition_logBytes (by omega) (fun x hx => hfits x (List.mem_of_mem_drop hx)) hne ht]
  exact ⟨hbase, hnewest, hfits, by rw [hcount], rfl, rfl, rfl⟩

/-- **Reopening keeps the representation**, and forgets nothing but a
tail it does not see. -/
theorem openPartition (h : Represents p hist base tail) (hlen : hist.length ≤ 2 ^ 63)
    {tail' : Bytes} (ht : tail'.length < headerSize) (maxRecords : ℤ) :
    Represents (openPartition (logBytes base (hist.drop base) ++ tail') maxRecords)
      hist base tail' :=
  of_logBytes h.base_le h.newest h.fits hlen ht maxRecords

/-- **Every retained offset reads back its payload**, and nothing else is
there to read. -/
theorem readAt (h : Represents p hist base tail) (o : ℤ) :
    p.readAt o = if (base : ℤ) ≤ o ∧ o < hist.length then hist[o.toNat]? else none := by
  rw [Partition.readAt, h.offset_eq, h.baseOffset_eq]
  by_cases hout : o < base ∨ o ≥ hist.length
  · rw [if_pos hout, if_neg (by omega)]
  rw [if_neg hout, if_pos (by omega)]
  obtain ⟨i, rfl⟩ : ∃ i : ℕ, o = (base + i : ℕ) := ⟨(o - base).toNat, by push_cast; omega⟩
  have hi : i < (hist.drop base).length := by
    rw [List.length_drop]
    omega
  have hidx : ((base + i : ℕ) - (base : ℤ)).toNat = i := by omega
  have hfits : Fits (hist.drop base)[i] := h.fits _ (List.mem_of_mem_drop (List.getElem_mem hi))
  -- the record at offset `base + i`, in place
  set pos := (logBytes base ((hist.drop base).take i)).length with hpos
  have hdrop : p.logFile.drop pos = recordBytes (base + i : ℕ) (hist.drop base)[i] ++
      (logBytes (base + i + 1) ((hist.drop base).drop (i + 1)) ++ tail) := by
    rw [h.logFile_eq]
    exact drop_logBytes hi tail
  have hlen : pos + headerSize + (hist.drop base)[i].length ≤ p.logFile.length := by
    have := congrArg List.length hdrop
    simp only [List.length_drop, List.length_append, length_recordBytes] at this
    simp only [headerSize] at this ⊢
    omega
  have hheader : (p.logFile.drop pos).take headerSize
      = beBytes 8 (uint64 (base + i : ℕ)) ++ beBytes 4 (hist.drop base)[i].length := by
    rw [hdrop, recordBytes, List.append_assoc, List.take_left' (by simp [headerSize])]
  have hpayload : (p.logFile.drop (pos + headerSize)).take (hist.drop base)[i].length
      = (hist.drop base)[i] := by
    rw [← List.drop_drop, hdrop, recordBytes, List.append_assoc,
      List.drop_left' (by simp [headerSize]), List.take_left]
  have hfield : beNat (beBytes 4 (hist.drop base)[i].length) = (hist.drop base)[i].length :=
    beNat_beBytes_of_lt (by simpa [Fits] using hfits)
  rw [hidx, h.index_eq, getElem?_starts base hi, ← hpos]
  simp only [Partition.fileReadAt]
  rw [if_pos (Or.inr (by omega)), hheader]
  simp only [List.drop_left' (length_beBytes 8 _), hfield]
  rw [if_pos (Or.inr (by omega)), hpayload, List.getElem_drop]
  simp only [Int.toNat_natCast]
  exact (List.getElem?_eq_getElem _).symm

/-- **A trim drops the oldest records** and rebases the index. -/
theorem trimLocked (h : Represents p hist base tail) {d : ℕ}
    (hd : base + d < hist.length) :
    Represents (p.trimLocked d) hist (base + d) tail := by
  have hbase := h.base_le
  have hlen := h.length_index
  rcases Nat.eq_zero_or_pos d with rfl | hpos
  · rw [Partition.trimLocked, if_pos (by simp)]
    exact h
  have hi : d < (hist.drop base).length := by
    rw [List.length_drop]
    omega
  have hstart : p.index.getD (d : ℤ).toNat 0
      = (logBytes base ((hist.drop base).take d)).length := by
    rw [List.getD_eq_getElem?_getD, h.index_eq, Int.toNat_natCast, getElem?_starts base hi]
    rfl
  have hsplit : logBytes base (hist.drop base)
      = logBytes base ((hist.drop base).take d) ++ logBytes (base + d) (hist.drop (base + d)) := by
    conv_lhs => rw [← List.take_append_drop d (hist.drop base)]
    rw [logBytes_append, List.length_take, Nat.min_eq_left (by omega), List.drop_drop]
  rw [Partition.trimLocked, if_neg (by omega)]
  refine ⟨by omega, fun _ => hd, h.fits, h.offset_eq, ?_, ?_, ?_⟩
  · simp [h.baseOffset_eq]
  · simp only [hstart]
    rw [h.logFile_eq, hsplit, List.append_assoc, List.drop_left]
  · simp only [hstart]
    rw [h.index_eq, Int.toNat_natCast, starts_drop 0 base, starts_shift, List.drop_drop]

/-- **Retention drops a prefix**, never the newest record, and afterwards
the cap holds. -/
theorem retain (h : Represents p hist base tail) (hne : hist ≠ []) :
    ∃ base', base ≤ base' ∧ Represents p.retain hist base' tail ∧
      (0 < p.maxRecords → (hist.length : ℤ) - base' ≤ p.maxRecords) := by
  have hlen := h.length_index
  have hnew := h.newest hne
  unfold Partition.retain
  by_cases hcap : p.maxRecords > 0 ∧ (p.index.length : ℤ) > p.maxRecords
  · rw [if_pos hcap]
    obtain ⟨d, hd⟩ : ∃ d : ℕ, (p.index.length : ℤ) - (p.maxRecords - p.maxRecords / 10) = d :=
      ⟨((p.index.length : ℤ) - (p.maxRecords - p.maxRecords / 10)).toNat, by omega⟩
    simp only [hd]
    rw [if_pos (by omega)]
    exact ⟨base + d, by omega, h.trimLocked (by omega), fun _ => by push_cast; omega⟩
  · rw [if_neg hcap]
    exact ⟨base, le_rfl, h, fun hpos => by omega⟩

/-- **The record of an append**, before the retention step. It needs the
file to end where the last record does. -/
theorem record (h : Represents p hist base []) {x : Bytes} (hx : Fits x) :
    Represents
      { p with
        logFile := p.logFile ++ recordBytes p.offset x
        index := p.index ++ [p.logFile.length]
        offset := p.offset + 1 } (hist ++ [x]) base [] := by
  have hbase := h.base_le
  have hfile : p.logFile = logBytes base (hist.drop base) := by simpa using h.logFile_eq
  have hdrop : (hist ++ [x]).drop base = hist.drop base ++ [x] :=
    List.drop_append_of_le_length hbase
  have hcount : base + (hist.drop base).length = hist.length := by
    rw [List.length_drop]
    omega
  refine ⟨by simp; omega, fun _ => by simp; omega, ?_, ?_, h.baseOffset_eq, ?_, ?_⟩
  · intro y hy
    rcases List.mem_append.mp hy with hy | hy
    · exact h.fits y hy
    · obtain rfl := List.mem_singleton.mp hy
      exact hx
  · simp [h.offset_eq]
  · simp only [hdrop, logBytes_append, hcount, hfile, h.offset_eq]
    simp [logBytes]
  · simp only [hdrop, starts_append 0 base, h.index_eq, hfile]
    simp [starts]

/-- **An append adds its payload to the history**, at the offset it
returns, and may drop a prefix of the oldest records. -/
theorem append (h : Represents p hist base []) {x : Bytes} (hx : Fits x) :
    (p.append x).2 = hist.length ∧
    ∃ base', base ≤ base' ∧ Represents (p.append x).1 (hist ++ [x]) base' [] ∧
      (0 < p.maxRecords → (hist.length : ℤ) + 1 - base' ≤ p.maxRecords) := by
  obtain ⟨base', hle, hret, hcap⟩ := (h.record hx).retain (by simp)
  refine ⟨h.offset_eq, base', hle, hret, fun hpos => ?_⟩
  have := hcap hpos
  simp only [List.length_append, List.length_singleton] at this
  push_cast at this
  exact this

/-- Below the cap nothing is dropped. -/
theorem append_of_le (h : Represents p hist base []) {x : Bytes} (hx : Fits x)
    (hcap : p.maxRecords ≤ 0 ∨ (hist.length : ℤ) + 1 - base ≤ p.maxRecords) :
    Represents (p.append x).1 (hist ++ [x]) base [] := by
  have hrecord := h.record hx
  have hlen := hrecord.length_index
  simp only [List.length_append, List.length_singleton] at hlen
  rw [Partition.append, Partition.retain, if_neg]
  · exact hrecord
  · simp only [List.length_append, List.length_singleton]
    push_cast at hlen ⊢
    omega

end Represents

end Broker

end TftAnalytics

import TftAnalytics.Broker.Helpers.Partition
/-!
# Broker — a partition is an append-only sequence

The abstract object is the list of payloads ever appended together with
the lowest offset still retained; the partition's file, index and offsets
are how it is kept. A run appends and reopens, under caps that may change
at each reopening, and along it the partition is never anything but that
list with a prefix forgotten.
-/

namespace TftAnalytics

namespace Broker

/-- What happens to a partition while nothing fails. -/
inductive Op where
  | append (payload : Bytes)
  | reopen (maxRecords : ℤ)
  deriving DecidableEq, Repr

namespace Op

/-- The partition after the operation. -/
def apply (p : Partition) : Op → Partition
  | append payload => (p.append payload).1
  | reopen maxRecords => p.reopen maxRecords

/-- The payload an operation appends. -/
def payload? : Op → Option Bytes
  | append payload => some payload
  | reopen _ => none

end Op

/-- The payloads a run appends, in order. -/
def appended (ops : List Op) : List Bytes := ops.filterMap Op.payload?

/-- A run from a log file that does not exist yet. -/
def run (maxRecords : ℤ) (ops : List Op) : Partition :=
  ops.foldl Op.apply (openPartition [] maxRecords)

@[simp] theorem appended_append (ops ops' : List Op) :
    appended (ops ++ ops') = appended ops ++ appended ops' := List.filterMap_append

theorem run_append (maxRecords : ℤ) (ops ops' : List Op) :
    run maxRecords (ops ++ ops') = ops'.foldl Op.apply (run maxRecords ops) := List.foldl_append

variable {maxRecords : ℤ} {ops : List Op}

/-- **One operation**, on the representation: the history grows by what
is appended and the base never moves back. -/
theorem Represents.apply {p : Partition} {hist : List Bytes} {base : ℕ}
    (h : Represents p hist base []) (op : Op)
    (hfits : ∀ x, op.payload? = some x → Fits x) (hlen : hist.length ≤ 2 ^ 63) :
    ∃ base', base ≤ base' ∧ Represents (op.apply p) (hist ++ op.payload?.toList) base' [] := by
  cases op with
  | append x =>
    obtain ⟨-, base', hle, hrep, -⟩ := h.append (hfits x rfl)
    exact ⟨base', hle, hrep⟩
  | reopen m =>
    refine ⟨base, le_rfl, ?_⟩
    have hshort : ([] : Bytes).length < headerSize := by simp [headerSize]
    have hrep := h.openPartition hlen hshort m
    rw [← h.logFile_eq] at hrep
    simp only [Op.payload?, Option.toList_none, List.append_nil]
    exact hrep

/-- **A run**, on the representation. -/
theorem represents_foldl {p : Partition} {hist : List Bytes} {base : ℕ}
    (h : Represents p hist base []) (hfits : ∀ x ∈ appended ops, Fits x)
    (hlen : (hist ++ appended ops).length ≤ 2 ^ 63) :
    ∃ base', base ≤ base' ∧
      Represents (ops.foldl Op.apply p) (hist ++ appended ops) base' [] := by
  induction ops generalizing p hist base with
  | nil => exact ⟨base, le_rfl, by simpa [appended] using h⟩
  | cons op ops ih =>
    have hsplit : appended (op :: ops) = op.payload?.toList ++ appended ops := by
      cases op <;> rfl
    rw [hsplit] at hfits hlen ⊢
    rw [List.length_append] at hlen
    obtain ⟨base₁, hle₁, hrep₁⟩ := h.apply op (fun x hx => hfits x (by simp [hx])) (by omega)
    rw [← List.append_assoc]
    obtain ⟨base₂, hle₂, hrep₂⟩ := ih hrep₁ (fun x hx => hfits x (by simp [hx])) (by
      simp only [List.length_append] at hlen ⊢
      omega)
    exact ⟨base₂, by omega, hrep₂⟩

theorem represents_run (maxRecords : ℤ) (hfits : ∀ x ∈ appended ops, Fits x)
    (hlen : (appended ops).length ≤ 2 ^ 63) :
    ∃ base, Represents (run maxRecords ops) (appended ops) base [] := by
  obtain ⟨base, -, hrep⟩ := represents_foldl (Represents.openPartition_empty maxRecords)
    hfits (by simpa using hlen)
  exact ⟨base, hrep⟩

/-- Dropping the end of a run drops the end of what it appended. -/
theorem fits_of_append {ops' : List Op} (h : ∀ x ∈ appended (ops ++ ops'), Fits x) :
    (∀ x ∈ appended ops, Fits x) ∧ ∀ x ∈ appended ops', Fits x := by
  simp only [appended_append, List.mem_append] at h
  exact ⟨fun x hx => h x (Or.inl hx), fun x hx => h x (Or.inr hx)⟩

/-- The base only moves forward along a run. -/
theorem baseOffset_le_of_append {ops' : List Op} (hfits : ∀ x ∈ appended (ops ++ ops'), Fits x)
    (hlen : (appended (ops ++ ops')).length ≤ 2 ^ 63) :
    (run maxRecords ops).baseOffset ≤ (run maxRecords (ops ++ ops')).baseOffset := by
  obtain ⟨hfits₁, hfits₂⟩ := fits_of_append hfits
  rw [appended_append, List.length_append] at hlen
  obtain ⟨base, hrep⟩ := represents_run maxRecords hfits₁ (by omega)
  obtain ⟨base', hle, hrep'⟩ := represents_foldl hrep hfits₂ (by
    rw [List.length_append]
    omega)
  rw [run_append, hrep.baseOffset_eq, hrep'.baseOffset_eq]
  exact_mod_cast hle

/-- **A partition refines an append-only sequence.** Over every run of
appends and reopenings, with every payload inside the record's length
field and every offset an `int64`: the offset returned counts the appends
before it, the base never decreases, the retained offsets read back
exactly what was appended and every other one is `io.EOF`, so what is
gone is a prefix of the oldest records, and right after an append under a
cap the cap holds with the newest record retained. -/
theorem partition_refines_sequence (maxRecords : ℤ) (ops : List Op)
    (hfits : ∀ x ∈ appended ops, Fits x) (hlen : (appended ops).length ≤ 2 ^ 63) :
    (∀ pre x post, ops = pre ++ .append x :: post →
      ((run maxRecords pre).append x).2 = (appended pre).length) ∧
    (∀ pre post, ops = pre ++ post →
      (run maxRecords pre).baseOffset ≤ (run maxRecords ops).baseOffset) ∧
    (run maxRecords ops).nextOffset = (appended ops).length ∧
    (0 ≤ (run maxRecords ops).baseOffset ∧
      (run maxRecords ops).baseOffset ≤ (run maxRecords ops).nextOffset) ∧
    (∀ o, (run maxRecords ops).baseOffset ≤ o → o < (run maxRecords ops).nextOffset →
      ∃ x, (appended ops)[o.toNat]? = some x ∧ (run maxRecords ops).readAt o = some x) ∧
    (∀ o, o < (run maxRecords ops).baseOffset ∨ (run maxRecords ops).nextOffset ≤ o →
      (run maxRecords ops).readAt o = none) ∧
    (∀ pre x post, ops = pre ++ .append x :: post →
      0 < (run maxRecords pre).maxRecords →
      (run maxRecords (pre ++ [.append x])).nextOffset
          - (run maxRecords (pre ++ [.append x])).baseOffset ≤ (run maxRecords pre).maxRecords ∧
        (run maxRecords (pre ++ [.append x])).readAt (appended pre).length = some x) := by
  obtain ⟨base, hrep⟩ := represents_run maxRecords hfits hlen
  have hbase := hrep.base_le
  have hb := hrep.baseOffset_eq
  have hn : (run maxRecords ops).nextOffset = (appended ops).length := hrep.offset_eq
  -- what an append in the middle of the run finds
  have hmid : ∀ pre x post, ops = pre ++ .append x :: post →
      Fits x ∧ ∃ base, Represents (run maxRecords pre) (appended pre) base [] := by
    intro pre x post hops
    subst hops
    obtain ⟨hfits₁, hfits₂⟩ := fits_of_append hfits
    rw [appended_append, List.length_append] at hlen
    exact ⟨hfits₂ x (by simp [appended, Op.payload?]), represents_run maxRecords hfits₁ (by omega)⟩
  refine ⟨?_, ?_, hn, ⟨by omega, by omega⟩, ?_, ?_, ?_⟩
  · intro pre x post hops
    obtain ⟨hx, b, hpre⟩ := hmid pre x post hops
    exact (hpre.append hx).1
  · intro pre post hops
    subst hops
    exact baseOffset_le_of_append hfits hlen
  · intro o h₁ h₂
    have hlt : o.toNat < (appended ops).length := by omega
    refine ⟨_, List.getElem?_eq_getElem hlt, ?_⟩
    rw [hrep.readAt, if_pos (by omega), List.getElem?_eq_getElem hlt]
  · intro o ho
    rw [hrep.readAt, if_neg (by omega)]
  · intro pre x post hops hpos
    obtain ⟨hx, b, hpre⟩ := hmid pre x post hops
    obtain ⟨-, base', -, hrep', hcap⟩ := hpre.append hx
    have hcap' := hcap hpos
    have hlast : run maxRecords (pre ++ [.append x]) = ((run maxRecords pre).append x).1 := by
      rw [run_append]
      rfl
    have hnew := hrep'.newest (by simp)
    have hnext := hrep'.offset_eq
    simp only [List.length_append, List.length_singleton] at hnew hnext
    rw [hlast, hrep'.readAt, Partition.nextOffset, hnext, hrep'.baseOffset_eq]
    push_cast
    refine ⟨hcap', ?_⟩
    rw [if_pos (by rw [List.length_append, List.length_singleton]; omega)]
    simp

/-- A run with a trim and a reopening in it. -/
theorem partition_refines_sequence_trim :
    (run 2 [.append [1], .append [2], .append [3], .reopen 5]).nextOffset = 3 ∧
      ∃ x, [[1], [2], [3]][(2 : ℤ).toNat]? = some x ∧
        (run 2 [.append [1], .append [2], .append [3], .reopen 5]).readAt 2 = some x := by
  have h := partition_refines_sequence 2 [.append [1], .append [2], .append [3], .reopen 5]
    (by decide) (by decide)
  obtain ⟨-, -, hn, -, hread, -⟩ := h
  exact ⟨hn, hread 2 (by decide) (by decide)⟩

end Broker

end TftAnalytics

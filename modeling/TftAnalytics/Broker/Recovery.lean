import TftAnalytics.Broker.Helpers.Partition
/-!
# Broker — crashes and recovery of a partition log

A crash interrupts an append and leaves a strict prefix of its record at
the end of the file. `recover` was written with such a tail in mind, but
its loop asks for a whole header only: the payload is skipped by a seek,
which does not fail past the end of the file. A torn payload is therefore
counted as a record, and a torn header, though not counted, stays in the
file in front of what is appended next, where the following recovery
reads it as the start of a header.

What remains true is stated over runs: while no crash leaves a whole
header, and nothing is written behind a torn one, a partition recovers
exactly.
-/

namespace TftAnalytics

namespace Broker

/-- What happens to a partition across crashes. -/
inductive Step where
  | append (payload : Bytes)
  | reopen (maxRecords : ℤ)
  /-- A crash leaving `n` bytes of the record of `payload`, and a reopening. -/
  | crash (payload : Bytes) (n : ℕ) (maxRecords : ℤ)
  deriving DecidableEq, Repr

namespace Step

/-- The partition after the step. -/
def apply (p : Partition) : Step → Partition
  | append payload => (p.append payload).1
  | reopen maxRecords => p.reopen maxRecords
  | crash payload n maxRecords => p.crash payload n maxRecords

/-- The payload a step appends successfully. -/
def payload? : Step → Option Bytes
  | append payload => some payload
  | _ => none

/-- A crash leaves a strict prefix of the record. -/
def Strict : Step → Prop
  | crash payload n _ => n < headerSize + payload.length
  | _ => True

/-- A crash leaves less than a header. -/
def NoHeader : Step → Prop
  | crash _ n _ => n < headerSize
  | _ => True

/-- A crash leaves some bytes behind. -/
def Tears : Step → Prop
  | crash _ n _ => 0 < n
  | _ => False

/-- The step leaves bytes at the end of the file. -/
def Writes : Step → Prop
  | append _ => True
  | crash _ n _ => 0 < n
  | reopen _ => False

instance (s : Step) : Decidable s.Strict := by cases s <;> unfold Strict <;> infer_instance
instance (s : Step) : Decidable s.NoHeader := by cases s <;> unfold NoHeader <;> infer_instance
instance (s : Step) : Decidable s.Tears := by cases s <;> unfold Tears <;> infer_instance
instance (s : Step) : Decidable s.Writes := by cases s <;> unfold Writes <;> infer_instance

end Step

/-- The payloads a history appended successfully, in order. -/
def survivors (steps : List Step) : List Bytes := steps.filterMap Step.payload?

/-- A history from a log file that does not exist yet. -/
def crashRun (maxRecords : ℤ) (steps : List Step) : Partition :=
  steps.foldl Step.apply (openPartition [] maxRecords)

/-- **What recovery owes**: `NextOffset` counts the successful appends,
and every retained offset reads back its payload. -/
def Consistent (p : Partition) (hist : List Bytes) : Prop :=
  p.nextOffset = hist.length ∧
    ∀ o, p.baseOffset ≤ o → o < p.nextOffset → ∃ x, hist[o.toNat]? = some x ∧ p.readAt o = some x

/-- Crash consistency, over every history whose crashes leave strict
prefixes. -/
def CrashConsistent : Prop :=
  ∀ (maxRecords : ℤ) (steps : List Step), (∀ s ∈ steps, s.Strict) →
    Consistent (crashRun maxRecords steps) (survivors steps)

/-- **Recovery counts a torn payload.** The first append of a new log is
interrupted once its header is on disk; the reopened partition has
`NextOffset` 1 though nothing was appended. -/
theorem not_crashConsistent : ¬ CrashConsistent := by
  intro h
  have hc := (h 0 [.crash [7] 12 0] (by decide)).1
  have hnext : (crashRun 0 [.crash [7] 12 0]).nextOffset = 1 := by decide
  rw [hnext] at hc
  exact absurd hc (by decide)

/-- **A history that never writes behind torn bytes.** No crash leaves a
whole header, and after a crash that leaves some of one nothing more is
written to the file. -/
def Untorn (steps : List Step) : Prop :=
  (∀ s ∈ steps, s.NoHeader) ∧ steps.Pairwise fun s s' => s.Tears → ¬ s'.Writes

instance (steps : List Step) : Decidable (Untorn steps) :=
  inferInstanceAs (Decidable (_ ∧ _))

variable {p : Partition} {hist : List Bytes} {base : ℕ} {tail : Bytes}

theorem Represents.consistent (h : Represents p hist base tail) : Consistent p hist := by
  refine ⟨h.offset_eq, fun o h₁ h₂ => ?_⟩
  rw [h.baseOffset_eq] at h₁
  rw [Partition.nextOffset, h.offset_eq] at h₂
  have hlt : o.toNat < hist.length := by omega
  refine ⟨_, List.getElem?_eq_getElem hlt, ?_⟩
  rw [h.readAt, if_pos ⟨h₁, h₂⟩, List.getElem?_eq_getElem hlt]

/-- **One step.** With a whole record at the end of the file any step may
come, and with a torn header there only one that writes nothing. -/
theorem Represents.step (h : Represents p hist base tail) (ht : tail.length < headerSize)
    (s : Step) (hfits : ∀ x, s.payload? = some x → Fits x) (hlen : hist.length ≤ 2 ^ 63)
    (hhead : s.NoHeader) (htail : tail ≠ [] → ¬ s.Writes) :
    ∃ base' tail', Represents (s.apply p) (hist ++ s.payload?.toList) base' tail' ∧
      tail'.length < headerSize ∧ (tail' ≠ [] → tail ≠ [] ∨ s.Tears) := by
  cases s with
  | append x =>
    -- nothing is written behind a torn tail
    obtain rfl : tail = [] := by
      by_contra hne
      exact htail hne trivial
    obtain ⟨-, base', -, hrep, -⟩ := h.append (hfits x rfl)
    exact ⟨base', [], hrep, by simp [headerSize], fun hne => absurd rfl hne⟩
  | reopen m =>
    refine ⟨base, tail, ?_, ht, Or.inl⟩
    have hrep := h.openPartition hlen ht m
    rw [← h.logFile_eq] at hrep
    simp only [Step.payload?, Option.toList_none, List.append_nil]
    exact hrep
  | crash x n m =>
    change n < headerSize at hhead
    -- what the crash adds is less than a header, or nothing behind an older tail
    have htail' : (tail ++ (recordBytes p.offset x).take n).length < headerSize := by
      rcases eq_or_ne tail [] with rfl | hne
      · simp only [List.nil_append, List.length_take]
        omega
      · have hn : n = 0 := by
          have := htail hne
          change ¬ 0 < n at this
          omega
        simpa [hn] using ht
    refine ⟨base, tail ++ (recordBytes p.offset x).take n, ?_, htail', fun hne => ?_⟩
    · have hrep := h.openPartition hlen htail' m
      rw [← List.append_assoc, ← h.logFile_eq] at hrep
      simp only [Step.payload?, Option.toList_none, List.append_nil]
      exact hrep
    · by_cases hn : 0 < n
      · exact Or.inr hn
      · obtain rfl : n = 0 := by omega
        exact Or.inl (by simpa using hne)

/-- **A run of such steps** ends in a partition that represents exactly
what was appended. The tail a crash left is carried along, and the rest
of the history writes nothing while there is one. -/
theorem represents_crashRun {steps : List Step} (h : Represents p hist base tail)
    (ht : tail.length < headerSize) (htail : tail ≠ [] → ∀ s ∈ steps, ¬ s.Writes)
    (hclean : Untorn steps) (hfits : ∀ x ∈ survivors steps, Fits x)
    (hlen : (hist ++ survivors steps).length ≤ 2 ^ 63) :
    ∃ base' tail', Represents (steps.foldl Step.apply p) (hist ++ survivors steps) base' tail' := by
  induction steps generalizing p hist base tail with
  | nil => exact ⟨base, tail, by simpa [survivors] using h⟩
  | cons s steps ih =>
    obtain ⟨hhead, hpair⟩ := hclean
    rw [List.pairwise_cons] at hpair
    have hsplit : survivors (s :: steps) = s.payload?.toList ++ survivors steps := by
      cases s <;> rfl
    rw [hsplit] at hfits hlen ⊢
    rw [List.length_append] at hlen
    obtain ⟨base₁, tail₁, hrep₁, ht₁, htear⟩ := h.step ht s (fun x hx => hfits x (by simp [hx]))
      (by omega) (hhead s (by simp)) (fun hne => htail hne s (by simp))
    rw [← List.append_assoc]
    refine ih hrep₁ ht₁ (fun hne s' hs' => ?_)
      ⟨fun s' hs' => hhead s' (by simp [hs']), hpair.2⟩ (fun x hx => hfits x (by simp [hx])) (by
        simp only [List.length_append] at hlen ⊢
        omega)
    rcases htear hne with hold | htears
    · exact htail hold s' (by simp [hs'])
    · exact hpair.1 s' hs' htears

/-- **Recovery is exact where nothing is written behind torn bytes.**
After every step of such a history, with payloads inside the record's
length field and offsets that are `int64`s, the next offset counts the
successful appends and every retained offset reads back its payload. -/
theorem consistent_of_untorn (maxRecords : ℤ) (steps : List Step) (hclean : Untorn steps)
    (hfits : ∀ x ∈ survivors steps, Fits x) (hlen : (survivors steps).length ≤ 2 ^ 63) :
    Consistent (crashRun maxRecords steps) (survivors steps) := by
  obtain ⟨base, tail, hrep⟩ := represents_crashRun (Represents.openPartition_empty maxRecords)
    (by simp [headerSize]) (fun hne => absurd rfl hne) hclean hfits (by simpa using hlen)
  exact Represents.consistent hrep

/-- Two appends, a crash that leaves five bytes of a header, and two
reopenings. -/
theorem consistent_of_untorn_header :
    Consistent (crashRun 0 [.append [1], .append [2], .crash [3] 5 0, .reopen 4])
      (survivors [.append [1], .append [2], .crash [3] 5 0, .reopen 4]) :=
  consistent_of_untorn 0 _ (by decide) (by decide) (by decide)

/-! ## Where recovery fails -/

/-- A record cut behind its header is read as a record that reaches past
the end of the file. -/
theorem readHeader_torn_payload {o : ℕ} {x : Bytes} (ho : o < 2 ^ 63) (hx : Fits x) {n : ℕ}
    (hn : headerSize ≤ n) : headers.dec ((recordBytes o x).take n) = some (⟨o, x.length⟩, []) := by
  have hcut : (recordBytes o x).take n
      = (beBytes 8 (uint64 o) ++ beBytes 4 x.length) ++ x.take (n - headerSize) := by
    rw [recordBytes, List.take_append, List.take_of_length_le (by simpa [headerSize] using hn)]
    simp [headerSize]
  rw [hcut]
  change readHeader (beBytes 8 (uint64 o) ++ beBytes 4 x.length ++ x.take (n - headerSize)) = _
  rw [readHeader_append ho hx, List.drop_eq_nil_of_le (List.length_take_le' _ _)]

/-- **So a crash behind the header adds a record nobody appended.** -/
theorem Represents.crash_nextOffset (h : Represents p hist base []) (hlen : hist.length < 2 ^ 63)
    {x : Bytes} (hx : Fits x) {n : ℕ} (hn : headerSize ≤ n)
    (maxRecords : ℤ) : (p.crash x n maxRecords).nextOffset = hist.length + 1 := by
  have hbase := h.base_le
  have hcount : base + (hist.drop base).length = hist.length := by
    rw [List.length_drop]
    omega
  have hscan : headers.scan (p.logFile ++ (recordBytes p.offset x).take n)
      = (headersOf base (hist.drop base ++ [x]), []) := by
    rw [h.logFile_eq, h.offset_eq, List.append_nil, scan_logBytes (by omega)
      (fun y hy => h.fits y (List.mem_of_mem_drop hy)),
      headers.scan_of_some (readHeader_torn_payload hlen hx hn),
      headers.scan_of_none (readHeader_short (by simp [headerSize])), headersOf_append, hcount]
    rfl
  have hne : hist.drop base ++ [x] = [] → base = 0 := by simp
  have hoffset := (foldl_headersOf hne).2.1
  rw [Partition.crash, Partition.nextOffset, Broker.openPartition, hscan, hoffset,
    List.length_append]
  simp only [List.length_singleton]
  push_cast
  omega

/-- **One crash on a clean log is survived exactly when it leaves less
than a header.** -/
theorem Represents.crash_consistent_iff (h : Represents p hist base [])
    (hlen : hist.length < 2 ^ 63) {x : Bytes} (hx : Fits x) {n : ℕ} (maxRecords : ℤ) :
    Consistent (p.crash x n maxRecords) hist ↔ n < headerSize := by
  constructor
  · intro hc
    by_contra hn
    have hnext := h.crash_nextOffset (n := n) hlen hx (by omega) maxRecords
    rw [hc.1] at hnext
    omega
  · intro hn
    obtain ⟨base', tail', hrep, -, -⟩ := h.step (by simp [headerSize]) (.crash x n maxRecords)
      (by simp [Step.payload?]) (by omega) hn (fun hne => absurd rfl hne)
    have hrep' : Represents (p.crash x n maxRecords) hist base' tail' := by
      simpa [Step.payload?, Step.apply] using hrep
    exact hrep'.consistent

end Broker

end TftAnalytics

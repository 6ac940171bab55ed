import TftAnalytics.Broker.Helpers.StorageRun
import TftAnalytics.Broker.Keys
/-!
# Broker — backfilling a replica

`backfill` publishes the records of a partition one by one, and a publish
gives each the next offset of the target. The target serves what the
source serves where the source has every record from offset `0` on; where
its head was trimmed, the records come out at other offsets. Two more
things must hold: the key must come back whole from `splitKey`, and the
target must not trim what it is sent.
-/

namespace TftAnalytics

namespace Broker

/-! ## Numbered records -/

section Numbered

variable {α : Type} {f : ℕ → Option α}

/-- Records at offsets in `[b, n)` only are at most `n - b`. -/
theorem length_filterMap_range_le {b n : ℕ} (h : ∀ o, f o ≠ none → b ≤ o ∧ o < n) (m : ℕ) :
    ((List.range m).filterMap f).length ≤ n - b := by
  have hmin : ((List.range m).filterMap f).length ≤ min m n - b := by
    induction m with
    | zero => simp
    | succ m ih =>
      rw [List.range_succ, List.filterMap_append, List.length_append]
      rcases hm : f m with - | y
      · simp only [List.filterMap_cons_none hm, List.filterMap_nil, List.length_nil]
        omega
      · have hrange := h m (by simp [hm])
        simp only [List.filterMap_cons_some hm, List.filterMap_nil, List.length_singleton]
        omega
  omega

/-- **Records without a gap below them** are numbered as they are listed. -/
theorem getElem?_filterMap_range (h : ∀ o o', o < o' → f o' ≠ none → f o ≠ none) (m o : ℕ) :
    ((List.range m).filterMap f)[o]? = if o < m then f o else none := by
  induction m generalizing o with
  | zero => simp
  | succ m ih =>
    rw [List.range_succ, List.filterMap_append]
    set l := (List.range m).filterMap f with hl
    rcases hm : f m with - | y
    · rw [List.filterMap_cons_none hm, List.filterMap_nil, List.append_nil, ih]
      rcases Nat.lt_trichotomy o m with hlt | rfl | hgt
      · rw [if_pos hlt, if_pos (by omega)]
      · rw [if_neg (by omega), if_pos (by omega), hm]
      · rw [if_neg (by omega), if_neg (by omega)]
    · -- every offset below has its record
      have hle : l.length ≤ m := by
        have := List.length_filterMap_le f (List.range m)
        rwa [List.length_range] at this
      have hlen : l.length = m := by
        by_contra hne
        have hnone := ih l.length
        rw [List.getElem?_eq_none le_rfl, if_pos (by omega)] at hnone
        exact h l.length m (by omega) (by simp [hm]) hnone.symm
      rw [List.filterMap_cons_some hm, List.filterMap_nil]
      rcases Nat.lt_trichotomy o m with hlt | rfl | hgt
      · rw [List.getElem?_append_left (by omega), ih, if_pos hlt, if_pos (by omega)]
      · rw [List.getElem?_append_right (by omega), hlen, Nat.sub_self, if_pos (by omega), hm]
        rfl
      · rw [List.getElem?_eq_none (by simp; omega), if_neg (by omega)]

end Numbered

/-! ## What a target is given -/

namespace Storage

variable {s : Storage} {key : GoString}

/-- Publishes under one key, one after the other. -/
def publishAll (s : Storage) (key : GoString) (xs : List Bytes) : Storage :=
  xs.foldl (fun s x => (s.publish key none x).1) s

theorem publishAll_concat (s : Storage) (key : GoString) (xs : List Bytes) (x : Bytes) :
    s.publishAll key (xs ++ [x]) = ((s.publishAll key xs).publish key none x).1 := by
  simp [publishAll, List.foldl_append]

theorem named_publishAll (hnamed : s.Named) (key : GoString) (xs : List Bytes) :
    (s.publishAll key xs).Named ∧ (s.publishAll key xs).maxRecords = s.maxRecords := by
  induction xs using List.reverseRecOn with
  | nil => exact ⟨hnamed, rfl⟩
  | append_singleton xs x ih =>
    rw [publishAll_concat]
    exact ⟨ih.1.publish key none x, (maxRecords_publish ih.1 key none x).trans ih.2⟩

/-- **Publishes to a new partition** are served as listed, up to what the
cap drops. -/
theorem serves_publishAll (h : s.Serves key [] 0) (hnamed : s.Named) {xs : List Bytes}
    (hfits : ∀ x ∈ xs, Fits x) :
    ∃ base, (s.publishAll key xs).Serves key xs base ∧
      (xs ≠ [] → 0 < s.maxRecords → (xs.length : ℤ) - base ≤ s.maxRecords) ∧
      (s.maxRecords ≤ 0 ∨ (xs.length : ℤ) ≤ s.maxRecords → base = 0) := by
  induction xs using List.reverseRecOn with
  | nil => exact ⟨0, h, fun hne => absurd rfl hne, fun _ => rfl⟩
  | append_singleton xs x ih =>
    obtain ⟨base, hserves, -, hsame⟩ := ih fun y hy => hfits y (by simp [hy])
    obtain ⟨hnamed', hmax⟩ := named_publishAll hnamed key xs
    obtain ⟨base', -, hserves', hlim, hsame'⟩ := hserves.publish hnamed' (hfits x (by simp))
    rw [hmax] at hlim hsame'
    rw [publishAll_concat, List.length_append, List.length_singleton]
    push_cast
    refine ⟨base', hserves', fun _ => hlim, fun hcap => ?_⟩
    have hbase : base = 0 := hsame (by omega)
    rw [hsame' (by omega), hbase]

/-- Publishes under a key leave the other files alone. -/
theorem agree_publishAll (hnamed : s.Named) {path : GoString} (h : path ≠ logName key)
    (xs : List Bytes) : (s.publishAll key xs).Agree s path := by
  induction xs using List.reverseRecOn with
  | nil => exact .refl ..
  | append_singleton xs x ih =>
    rw [publishAll_concat]
    exact (agree_publish (named_publishAll hnamed key xs).1 h none x).trans ih

end Storage

/-! ## What a source sends -/

variable {source : LogPartition} {d : LogDir}

theorem fileReadAt_length {file b : Bytes} {pos n : ℕ}
    (h : Partition.fileReadAt file pos n = some b) : b.length ≤ n := by
  unfold Partition.fileReadAt at h
  split_ifs at h
  obtain rfl := Option.some.inj h
  exact List.length_take_le ..

/-- What is read off a log fits the length field of a record. -/
theorem Partition.fits_of_readAt {p : Partition} {o : ℤ} {x : Bytes} (h : p.readAt o = some x) :
    Fits x := by
  unfold Partition.readAt at h
  split_ifs at h
  rcases hpos : p.index[(o - p.baseOffset).toNat]? with - | pos
  · simp only [hpos, reduceCtorEq] at h
  rcases hheader : Partition.fileReadAt p.logFile pos headerSize with - | header
  · simp only [hpos, hheader, reduceCtorEq] at h
  simp only [hpos, hheader] at h
  have hlen := fileReadAt_length h
  have hfield := beNat_lt (header.drop 8)
  have hfour : (header.drop 8).length ≤ 4 := by
    have := fileReadAt_length hheader
    simp only [List.length_drop, headerSize] at this ⊢
    omega
  have hpow : (256 : ℕ) ^ (header.drop 8).length ≤ 256 ^ 4 :=
    Nat.pow_le_pow_right (by decide) hfour
  unfold Fits
  omega

theorem LogPartition.fits_of_readAt {o : ℤ} {x : Bytes} (h : source.readAt d o = some x) :
    Fits x := by
  unfold LogPartition.readAt at h
  rcases hf : source.logFile with - | f
  · simp only [hf, reduceCtorEq] at h
  · simp only [hf] at h
    exact Partition.fits_of_readAt h

/-- Nothing is read at the next offset or above. -/
theorem LogPartition.lt_of_readAt {o : ℕ} (h : source.readAt d o ≠ none) :
    o < source.offset.toNat := by
  by_contra hge
  apply h
  unfold LogPartition.readAt
  rcases source.logFile with - | f
  · rfl
  · exact if_pos (.inr (by simp only [LogPartition.view]; omega))

/-- The records that can be read, in order. -/
def LogPartition.records (source : LogPartition) (d : LogDir) : List Bytes :=
  (List.range source.offset.toNat).filterMap fun off : ℕ => source.readAt d off

theorem Storage.backfill_eq (source : LogPartition) (d : LogDir) (target : Storage) :
    target.backfill source d = target.publishAll (rejoin source.key) (source.records d) := by
  unfold Storage.publishAll LogPartition.records
  rw [List.foldl_filterMap]
  unfold Storage.backfill
  congr 1
  funext t off
  cases source.readAt d off <;> rfl

/-- The source has no record to serve. -/
def LogPartition.Silent (source : LogPartition) (d : LogDir) : Prop :=
  ∀ o : ℕ, source.readAt d o = none

/-- Below a record that the source serves it serves every other. -/
def LogPartition.Untrimmed (source : LogPartition) (d : LogDir) : Prop :=
  ∀ o o' : ℕ, o < o' → source.readAt d o' ≠ none → source.readAt d o ≠ none

theorem LogPartition.records_eq_nil : source.records d = [] ↔ source.Silent d := by
  rw [LogPartition.records, List.filterMap_eq_nil_iff]
  constructor
  · intro h o
    by_contra hsome
    exact hsome (h o (List.mem_range.mpr (LogPartition.lt_of_readAt hsome)))
  · intro h o _
    exact h o

theorem LogPartition.fits_records {x : Bytes} (h : x ∈ source.records d) : Fits x := by
  obtain ⟨o, -, ho⟩ := List.mem_filterMap.mp h
  exact LogPartition.fits_of_readAt ho

/-- Where nothing is trimmed, records are listed at their offsets. -/
theorem LogPartition.Untrimmed.getElem?_records (h : source.Untrimmed d) (o : ℕ) :
    (source.records d)[o]? = source.readAt d o := by
  rw [LogPartition.records, getElem?_filterMap_range h]
  split_ifs with hlt
  · rfl
  · by_contra hne
    exact hlt (LogPartition.lt_of_readAt (Ne.symm hne))

/-! ## Main results -/

/-- **A target reproduces a partition**: at every offset that a subscriber
can ask for, it serves what the source serves, and nothing else. -/
def Storage.Reproduces (target : Storage) (source : LogPartition) (d : LogDir) : Prop :=
  ∀ o : ℕ, target.readAt source.key o = source.readAt d o

/-- The cap leaves room for every record of the source. -/
def LogPartition.Within (source : LogPartition) (d : LogDir) (maxRecords : ℤ) : Prop :=
  maxRecords ≤ 0 ∨ ∀ o : ℕ, source.readAt d o ≠ none → (o : ℤ) < maxRecords

/-- Without a gap the room asked for is that of their number. -/
theorem LogPartition.Untrimmed.within_iff (h : source.Untrimmed d) {maxRecords : ℤ} :
    source.Within d maxRecords ↔
      maxRecords ≤ 0 ∨ ((source.records d).length : ℤ) ≤ maxRecords := by
  constructor
  · rintro (hcap | hwithin)
    · exact .inl hcap
    rcases Nat.eq_zero_or_pos (source.records d).length with hzero | hpos
    · omega
    · have hlast : (source.records d).length - 1 < (source.records d).length := by omega
      have := hwithin ((source.records d).length - 1) (by
        rw [← h.getElem?_records, List.getElem?_eq_getElem hlast]
        exact Option.some_ne_none _)
      omega
  · rintro (hcap | hlen)
    · exact .inl hcap
    refine .inr fun o ho => ?_
    have hlt : o < (source.records d).length := by
      rw [← h.getElem?_records] at ho
      by_contra hge
      exact ho (List.getElem?_eq_none (by omega))
    omega

/-- **What backfilling needs** of a partition and of the target's cap. -/
structure Backfillable (source : LogPartition) (d : LogDir) (maxRecords : ℤ) : Prop where
  region : (splitKey source.key).2.1 ≠ []
  tier : (splitKey source.key).2.2 ≠ []
  untrimmed : source.Untrimmed d
  within : source.Within d maxRecords

section

variable {target : Storage}

/-- **A source that serves what it sent**, from some offset on, has no gap:
what is served are as many records as were sent. -/
theorem LogPartition.untrimmed_of_readAt {base : ℕ} (hnil : source.records d ≠ [])
    (h : ∀ o : ℕ, source.readAt d o
      = if base ≤ o ∧ o < (source.records d).length then (source.records d)[o]? else none) :
    base = 0 ∧ source.Untrimmed d := by
  have hpos := List.length_pos_of_ne_nil hnil
  have hrange : ∀ o : ℕ, source.readAt d o ≠ none → base ≤ o ∧ o < (source.records d).length := by
    intro o ho
    by_contra hout
    exact ho ((h o).trans (if_neg hout))
  have hcount : (source.records d).length ≤ (source.records d).length - base :=
    length_filterMap_range_le hrange _
  obtain rfl : base = 0 := by omega
  refine ⟨rfl, fun o o' hlt ho' hnone => ?_⟩
  have hlt' : o < (source.records d).length := by
    have := (hrange o' ho').2
    omega
  rw [h o, if_pos ⟨Nat.zero_le o, hlt'⟩, List.getElem?_eq_getElem hlt'] at hnone
  cases hnone

/-- What a target serves of a partition it was sent under the same key. -/
theorem Storage.reproduces_iff_of_rejoin (hnamed : target.Named)
    (hserves : target.Serves source.key [] 0) (hkey : rejoin source.key = source.key) :
    (target.backfill source d).Reproduces source d ↔
      source.Silent d ∨ source.Untrimmed d ∧ source.Within d target.maxRecords := by
  obtain ⟨base, hall, hlim, hbase⟩ := serves_publishAll hserves hnamed
    fun x (hx : x ∈ source.records d) => LogPartition.fits_records hx
  rw [← hkey, ← Storage.backfill_eq, hkey] at hall
  have hread : ∀ o : ℕ, (target.backfill source d).readAt source.key o
      = if base ≤ o ∧ o < (source.records d).length then (source.records d)[o]? else none := by
    intro o
    rw [hall.readAt]
    simp only [Nat.cast_le, Nat.cast_lt, Int.toNat_natCast]
  unfold Storage.Reproduces
  simp only [hread]
  constructor
  · intro h
    by_cases hnil : source.records d = []
    · exact .inl (LogPartition.records_eq_nil.mp hnil)
    obtain ⟨rfl, huntrimmed⟩ := LogPartition.untrimmed_of_readAt hnil fun o => (h o).symm
    refine .inr ⟨huntrimmed, huntrimmed.within_iff.mpr ?_⟩
    rcases lt_or_ge 0 target.maxRecords with hcap | hcap
    · have := hlim hnil hcap
      omega
    · exact .inl hcap
  · rintro (hsilent | ⟨huntrimmed, hwithin⟩) o
    · have hnil := LogPartition.records_eq_nil.mpr hsilent
      rw [if_neg (by rw [hnil, List.length_nil]; omega), hsilent o]
    · obtain rfl := hbase (huntrimmed.within_iff.mp hwithin)
      rw [← huntrimmed.getElem?_records]
      split_ifs with hlt
      · rfl
      · rw [List.getElem?_eq_none (by omega)]

/-- Sent under another key, whose file has another name, it stays without
records. -/
theorem Storage.reproduces_iff_of_rejoin_ne (hnamed : target.Named)
    (hserves : target.Serves source.key [] 0)
    (hkey : logName source.key ≠ logName (rejoin source.key)) :
    (target.backfill source d).Reproduces source d ↔ source.Silent d := by
  have hagree := agree_publishAll hnamed hkey (source.records d)
  have hnamed' := (named_publishAll hnamed (rejoin source.key) (source.records d)).1
  rw [← Storage.backfill_eq] at hagree hnamed'
  have hread : ∀ o : ℕ, (target.backfill source d).readAt source.key o = none := by
    intro o
    rw [hagree.readAt hnamed', hserves.readAt]
    exact if_neg (by simp)
  unfold Storage.Reproduces LogPartition.Silent
  simp only [hread, eq_comm (a := none)]

end

/-- **Where backfilling reproduces the log.** For every partition of a
stream, in any state, and every broker that does not hold it, after any
run: the target serves what the source serves if and only if there is
nothing to serve, or the region and the tier read off the key are not
empty, the source has every record from offset `0` on, and the target's
cap leaves room for them. -/
theorem backfill_reproduces_iff (stream : Stream) (source : LogPartition) (d : LogDir)
    (hkey : source.key = stream.key) (maxRecords : ℤ) (ops : List StorageOp)
    (hfresh : (Storage.run maxRecords ops).partitions.lookup source.key = none)
    (hfile : (Storage.run maxRecords ops).dir (logName source.key) = []) :
    ((Storage.run maxRecords ops).backfill source d).Reproduces source d ↔
      source.Silent d ∨
        Backfillable source d (Storage.run maxRecords ops).maxRecords := by
  have hnamed := Storage.named_run maxRecords ops
  have hserves := Storage.serves_nil hfresh hfile
  have hcases : ((splitKey source.key).2.1 ≠ [] ∧ (splitKey source.key).2.2 ≠ [] ∧
        rejoin source.key = source.key) ∨
      (((splitKey source.key).2.1 = [] ∨ (splitKey source.key).2.2 = []) ∧
        source.key.length < (rejoin source.key).length) := by
    rw [hkey]
    exact rejoin_cases stream.topic stream.region stream.tier
  rcases hcases with ⟨hregion, htier, hrejoin⟩ | ⟨hempty, hlonger⟩
  · rw [Storage.reproduces_iff_of_rejoin hnamed hserves hrejoin]
    exact or_congr_right ⟨fun h => ⟨hregion, htier, h.1, h.2⟩, fun h => ⟨h.untrimmed, h.within⟩⟩
  · -- the records go to another partition
    have hname : logName source.key ≠ logName (rejoin source.key) := by
      intro heq
      have := congrArg List.length heq
      simp only [logName, sanitize, List.length_append, List.length_map] at this
      omega
    rw [Storage.reproduces_iff_of_rejoin_ne hnamed hserves hname]
    refine ⟨.inl, fun h => h.resolve_right fun hback => ?_⟩
    exact hempty.elim hback.region hback.tier

/-! ## Partitions that were only published to -/

/-- **What backfilling needs**, of a partition with a history: its base is
`0`, and the target's cap leaves room for all of it. -/
theorem LogPartition.Holds.backfillable_iff {hist : List Bytes} {base : ℕ}
    (h : source.Holds d hist base) (maxRecords : ℤ) :
    source.Silent d ∨ Backfillable source d maxRecords ↔
      hist = [] ∨ ((splitKey source.key).2.1 ≠ [] ∧ (splitKey source.key).2.2 ≠ [] ∧ base = 0 ∧
        (maxRecords ≤ 0 ∨ (hist.length : ℤ) ≤ maxRecords)) := by
  have hread : ∀ o : ℕ, source.readAt d o
      = if base ≤ o ∧ o < hist.length then hist[o]? else none := by
    intro o
    rw [h.readAt]
    simp only [Nat.cast_le, Nat.cast_lt, Int.toNat_natCast]
  have hsome : ∀ o : ℕ, source.readAt d o ≠ none ↔ base ≤ o ∧ o < hist.length := by
    intro o
    rw [hread]
    split_ifs with ho
    · simp [ho]
    · exact ⟨fun hne => absurd rfl hne, fun h => absurd h ho⟩
  -- the newest record is always retained
  have hnewest : hist ≠ [] → base ≤ hist.length - 1 ∧ hist.length - 1 < hist.length := by
    intro hne
    have := h.stored.newest hne
    omega
  constructor
  · rintro (hsilent | hback)
    · left
      by_contra hne
      exact (hsome _).mpr (hnewest hne) (hsilent _)
    · by_cases hne : hist = []
      · exact .inl hne
      obtain ⟨hbase, hlt⟩ := hnewest hne
      refine .inr ⟨hback.region, hback.tier, ?_, ?_⟩
      · by_contra hpos
        -- then the first offset is served too, so nothing was trimmed
        have hzero := hback.untrimmed 0 _ (by omega) ((hsome _).mpr ⟨hbase, hlt⟩)
        exact hpos (by have := ((hsome 0).mp hzero).1; omega)
      · refine hback.within.imp id fun hwithin => ?_
        have := hwithin _ ((hsome _).mpr ⟨hbase, hlt⟩)
        omega
  · rintro (rfl | ⟨hregion, htier, rfl, hcap⟩)
    · exact .inl fun o => by rw [hread]; simp
    · refine .inr ⟨hregion, htier, fun o o' hlt ho' => ?_, hcap.imp id fun hcap o ho => ?_⟩
      · have := (hsome o').mp ho'
        exact (hsome o).mpr (by omega)
      · have := (hsome o).mp ho
        omega

/-- The partition that a broker with a cap has after some publishes. -/
def published (maxRecords : ℤ) (stream : Stream) (xs : List Bytes) : LogDir × LogPartition :=
  let s := (Storage.new LogDir.empty maxRecords).publishAll stream.key xs
  ((s.getPartition stream.key).1.dir, (s.getPartition stream.key).2)

/-- Below the cap it is what was published. -/
theorem holds_published {maxRecords : ℤ} {xs : List Bytes} (stream : Stream)
    (hfits : ∀ x ∈ xs, Fits x) (hcap : maxRecords ≤ 0 ∨ (xs.length : ℤ) ≤ maxRecords) :
    (published maxRecords stream xs).2.Holds (published maxRecords stream xs).1 xs 0 := by
  have hnil : (Storage.new LogDir.empty maxRecords).Serves stream.key [] 0 :=
    Storage.serves_nil rfl rfl
  obtain ⟨base, hserves, -, hbase⟩ := Storage.serves_publishAll hnil (Storage.named_new _ _) hfits
  obtain rfl := hbase hcap
  exact hserves

/-- A source with two records, and a broker that has had another
partition. -/
theorem backfill_reproduces_untrimmed :
    ((Storage.run 0 [.publish ⟨[97], [], []⟩ none [9]]).backfill
        (published 0 ⟨[116], [114], [103]⟩ [[1], [2]]).2
        (published 0 ⟨[116], [114], [103]⟩ [[1], [2]]).1).Reproduces
      (published 0 ⟨[116], [114], [103]⟩ [[1], [2]]).2
      (published 0 ⟨[116], [114], [103]⟩ [[1], [2]]).1 := by
  have hholds : (published 0 ⟨[116], [114], [103]⟩ [[1], [2]]).2.Holds
      (published 0 ⟨[116], [114], [103]⟩ [[1], [2]]).1 [[1], [2]] 0 :=
    holds_published _ (by decide) (.inl le_rfl)
  refine (backfill_reproduces_iff ⟨[116], [114], [103]⟩ _ _ (by decide) 0 _ (by decide)
    (by decide)).mpr ((hholds.backfillable_iff _).mpr (.inr ⟨?_, ?_, rfl, .inl ?_⟩)) <;> decide

/-- **A trimmed head is not reproduced**: the source serves its second
record at offset `1`, the target at offset `0`. -/
theorem not_backfill_reproduces :
    (published 1 ⟨[116], [114], [103]⟩ [[1], [2]]).2.readAt
        (published 1 ⟨[116], [114], [103]⟩ [[1], [2]]).1 1 = some [2] ∧
      ¬ ((Storage.run 0 []).backfill (published 1 ⟨[116], [114], [103]⟩ [[1], [2]]).2
          (published 1 ⟨[116], [114], [103]⟩ [[1], [2]]).1).Reproduces
        (published 1 ⟨[116], [114], [103]⟩ [[1], [2]]).2
        (published 1 ⟨[116], [114], [103]⟩ [[1], [2]]).1 := by
  refine ⟨by decide, fun h => ?_⟩
  have hserved : ((Storage.run 0 []).backfill (published 1 ⟨[116], [114], [103]⟩ [[1], [2]]).2
      (published 1 ⟨[116], [114], [103]⟩ [[1], [2]]).1).readAt
        (published 1 ⟨[116], [114], [103]⟩ [[1], [2]]).2.key 0 = some [2] := by decide
  have hsource : (published 1 ⟨[116], [114], [103]⟩ [[1], [2]]).2.readAt
      (published 1 ⟨[116], [114], [103]⟩ [[1], [2]]).1 0 = none := by decide
  have hsame := (h 0).trans hsource
  rw [Nat.cast_zero, hserved] at hsame
  cases hsame

end Broker

end TftAnalytics

import TftAnalytics.Processor.Helpers.Processor
/-!
# Processor — messages delivered again

A subscriber that reconnects starts from the offset saved last, and a
message between that and where its stream had come is delivered, and
counted, again. It is counted once at most for each stream that started
at or below it.
-/

namespace TftAnalytics

namespace Processor

namespace Deployment

variable {cfg : Config} {feed : Feed} {found : Offsets} {σ σ' : Deployment}
variable {partition : GoString} {offset : ℤ}

/-- The message of a partition at an offset. -/
def IsAt (partition : GoString) (offset : ℤ) (m : Message) : Bool :=
  m.partition = partition ∧ m.offset = offset

/-- A stream of the partition that started at or below the offset. -/
def Covers (partition : GoString) (offset : ℤ) (start : GoString × ℤ) : Bool :=
  start.1 = partition ∧ start.2 ≤ offset

/-- Whether a thread may still put the message at an offset of its
partition on the queue, before it reconnects. -/
def pending (offset : ℤ) : Stage → ℕ
  | .loading => 0
  | .reading _ next => if next ≤ offset then 1 else 0
  | .putting _ m => if m.offset ≤ offset then 1 else 0
  | .putDone _ last => if last < offset then 1 else 0

/-- The threads of a partition that may. -/
def pendingAt (cfg : Config) (partition : GoString) (offset : ℤ) (i : ℕ) (stage : Stage) : ℕ :=
  if cfg.partitions[i]? = some partition then pending offset stage else 0

def pendingCount (cfg : Config) (σ : Deployment) (partition : GoString) (offset : ℤ) : ℕ :=
  ((List.range cfg.partitions.length).map fun i =>
    pendingAt cfg partition offset i (σ.memory.threads i)).sum

/-- **What the streams allow for**: the threads that may put the message on
the queue, the times it is there, and the times it was pushed. -/
def Covered (cfg : Config) (partition : GoString) (offset : ℤ) (σ : Deployment) : Prop :=
  σ.pendingCount cfg partition offset + σ.memory.incoming.countP (IsAt partition offset)
    + σ.pushed.countP (IsAt partition offset) ≤ σ.opened.countP (Covers partition offset)

/-- A stream just opened covers the offset where its thread may come to it. -/
theorem pendingAt_reading (partition : GoString) (offset : ℤ) {i : ℕ} {p : GoString}
    (hi : cfg.partitions[i]? = some p) (o : ℤ) :
    pendingAt cfg partition offset i (.reading o o)
      = if Covers partition offset (p, o) = true then 1 else 0 := by
  simp only [pendingAt, pending, Covers, hi, Option.some.injEq, decide_eq_true_eq]
  by_cases hp : p = partition
  · simp only [hp, if_true, true_and]
  · simp only [hp, if_false, false_and]

/-- A message at the offset was pending, and is not once it is on the
queue. -/
theorem pendingAt_putDone (partition : GoString) (offset : ℤ) {i : ℕ} {m : Message}
    (hi : cfg.partitions[i]? = some m.partition) (lastSaved : ℤ) :
    pendingAt cfg partition offset i (.putDone lastSaved m.offset)
        + (if IsAt partition offset m = true then 1 else 0)
      ≤ pendingAt cfg partition offset i (.putting lastSaved m) := by
  simp only [pendingAt, pending, IsAt, hi, Option.some.injEq, decide_eq_true_eq]
  by_cases hp : m.partition = partition
  · simp only [hp, if_true, true_and]
    split_ifs <;> omega
  · simp only [hp, if_false, false_and]
    omega

/-- A thread moves. -/
theorem pendingCount_goto (partition : GoString) (offset : ℤ) (σ : Deployment) {i : ℕ}
    {p : GoString} (hi : cfg.partitions[i]? = some p) (stage : Stage) :
    (σ.goto i stage).pendingCount cfg partition offset
        + pendingAt cfg partition offset i (σ.memory.threads i)
      = σ.pendingCount cfg partition offset + pendingAt cfg partition offset i stage := by
  obtain ⟨hlt, -⟩ := List.getElem?_eq_some_iff.mp hi
  exact sum_update (pendingAt cfg partition offset) σ.memory.threads stage hlt

/-- **A thread moves**: what it may do, and what it has put on the queue,
comes from what it might have done, or from a stream just opened. -/
theorem Covered.thread (h : σ.Covered cfg partition offset) {i : ℕ} {p : GoString}
    (hi : cfg.partitions[i]? = some p) (stage : Stage)
    (hthreads : σ'.memory.threads = (σ.goto i stage).memory.threads)
    (hpushed : σ'.pushed = σ.pushed)
    (hle : pendingAt cfg partition offset i stage
        + σ'.memory.incoming.countP (IsAt partition offset)
        + σ.opened.countP (Covers partition offset)
      ≤ pendingAt cfg partition offset i (σ.memory.threads i)
        + σ.memory.incoming.countP (IsAt partition offset)
        + σ'.opened.countP (Covers partition offset)) : σ'.Covered cfg partition offset := by
  have hgoto := pendingCount_goto partition offset σ hi stage
  have hsame : σ'.pendingCount cfg partition offset
      = (σ.goto i stage).pendingCount cfg partition offset := by
    unfold pendingCount
    rw [hthreads]
  unfold Covered at h ⊢
  rw [hsame, hpushed]
  omega

/-- A thread that may not do more than before. -/
theorem Covered.goto (h : σ.Covered cfg partition offset) {i : ℕ} {p : GoString}
    (hi : cfg.partitions[i]? = some p) (stage : Stage)
    (hle : pending offset stage ≤ pending offset (σ.memory.threads i)) :
    (σ.goto i stage).Covered cfg partition offset := by
  refine h.thread hi stage rfl rfl ?_
  have hle' : pendingAt cfg partition offset i stage
      ≤ pendingAt cfg partition offset i (σ.memory.threads i) := by
    unfold pendingAt
    split_ifs
    · exact hle
    · exact le_rfl
  exact Nat.add_le_add_right (Nat.add_le_add_right hle' _) _

theorem Covered.moves (hthreads : σ.Persisted cfg found) (h : σ.Covered cfg partition offset)
    (hmoves : Moves cfg feed σ σ') : σ'.Covered cfg partition offset := by
  cases hmoves with
  | idle => exact h
  | load i p hi hstage =>
    refine h.thread hi _ rfl rfl ?_
    have hnew := pendingAt_reading partition offset hi (σ.offsets.load p)
    show pendingAt cfg partition offset i (.reading (σ.offsets.load p) (σ.offsets.load p))
      + σ.memory.incoming.countP _ + σ.opened.countP _ ≤ _ + σ.memory.incoming.countP _
        + (σ.opened ++ [(p, σ.offsets.load p)]).countP _
    rw [List.countP_append, List.countP_singleton]
    omega
  | receive i p hi lastSaved next o hstage hnext event hevent =>
    refine h.goto hi (.putting lastSaved ⟨p, o, event⟩) ?_
    rw [hstage]
    unfold pending
    dsimp only
    split_ifs <;> omega
  | reconnect i p hi hheld => exact h.goto hi .loading (Nat.zero_le _)
  | put i p hi lastSaved m hstage hroom =>
    refine h.thread hi _ rfl rfl ?_
    have hback := hthreads.threads i p hi
    rw [hstage] at hback ⊢
    obtain ⟨-, rfl⟩ := hback
    have hput := pendingAt_putDone partition offset hi lastSaved
    show pendingAt cfg partition offset i (.putDone lastSaved m.offset)
      + (σ.memory.incoming ++ [m]).countP _ + σ.opened.countP _ ≤ _ + σ.memory.incoming.countP _
        + σ.opened.countP _
    rw [List.countP_append, List.countP_singleton]
    omega
  | save i p hi lastSaved last hstage =>
    refine h.goto hi (.reading last (last + 1)) ?_
    rw [hstage]
    unfold pending
    dsimp only
    split_ifs <;> omega
  | goOn i p hi lastSaved last hstage =>
    refine h.goto hi (.reading lastSaved (last + 1)) ?_
    rw [hstage]
    unfold pending
    dsimp only
    split_ifs <;> omega
  | drain drained hmain m incoming hincoming now =>
    unfold Covered at h ⊢
    rw [hincoming, List.countP_cons] at h
    show σ.pendingCount cfg partition offset + incoming.countP _ + (σ.pushed ++ [m]).countP _
      ≤ σ.opened.countP _
    rw [List.countP_append, List.countP_singleton]
    omega
  | popReady | proceed | flush | ended | write | finishFlush => exact h
  | restart now =>
    -- every thread is at the top of its loop, with no stream open
    have hnone : (σ.restart cfg now).pendingCount cfg partition offset = 0 := by
      unfold pendingCount pendingAt
      simp [restart, Memory.new, pending]
    unfold Covered at h ⊢
    rw [hnone]
    show 0 + [].countP _ + σ.pushed.countP _ ≤ σ.opened.countP _
    rw [List.countP_nil]
    omega

/-- **What is counted was pushed**: in the reorder buffer, the aggregate and
the flushes a message is no more often than it was pushed. -/
def CountedOnce (partition : GoString) (offset : ℤ) (σ : Deployment) : Prop :=
  σ.memory.reorder.events.countP (IsAt partition offset)
      + σ.aggregated.countP (IsAt partition offset)
      + (messagesOf σ.flushes).countP (IsAt partition offset)
    ≤ σ.pushed.countP (IsAt partition offset)

theorem CountedOnce.moves (h : σ.CountedOnce partition offset) (hmoves : Moves cfg feed σ σ') :
    σ'.CountedOnce partition offset := by
  unfold CountedOnce at h ⊢
  cases hmoves with
  | idle | load | receive | reconnect | put | save | goOn | proceed | ended | write
  | finishFlush => exact h
  | drain drained hmain m incoming hincoming now =>
    have hpush := (events_push σ.memory.reorder m now).countP_eq (IsAt partition offset)
    show (σ.memory.reorder.push m now).events.countP _ + σ.aggregated.countP _
      + (messagesOf σ.flushes).countP _ ≤ (σ.pushed ++ [m]).countP _
    rw [List.countP_cons] at hpush
    rw [List.countP_append, List.countP_singleton]
    omega
  | popReady hmain now =>
    obtain ⟨-, -, hperm, -⟩ := popReady_spec σ.memory.reorder now
    have hpop := hperm.countP_eq (IsAt partition offset)
    show (σ.memory.reorder.popReady now).1.events.countP _
      + (σ.aggregated ++ (σ.memory.reorder.popReady now).2).countP _
      + (messagesOf σ.flushes).countP _ ≤ σ.pushed.countP _
    rw [List.countP_append] at hpop ⊢
    omega
  | flush hmain hfits =>
    -- what was aggregated is now in the new flush
    show σ.memory.reorder.events.countP _ + [].countP _
      + (messagesOf (σ.flushes ++ [_])).countP _ ≤ σ.pushed.countP _
    unfold messagesOf at h ⊢
    simp only [List.countP_append, List.flatMap_append, List.flatMap_cons, List.flatMap_nil,
      List.append_nil, List.countP_nil]
    omega
  | restart now =>
    show [].countP _ + [].countP _ + (messagesOf σ.flushes).countP _ ≤ σ.pushed.countP _
    rw [List.countP_nil]
    omega

end Deployment

open Deployment

/-- **A message is counted once for each stream at most**, for every run
with stream errors and reconnects at any offsets, and crashes too: the
message of a partition at an offset is pushed into the reorder buffer no
more often than streams of the partition were opened at or below the
offset, and aggregated no more often than it was pushed. -/
theorem pushed_le_opened (cfg : Config) (feed : Feed) (found : Offsets) (start : ℚ)
    (actions : List Action) (partition : GoString) (offset : ℤ) :
    let σ := run cfg feed found start actions
    σ.pushed.countP (IsAt partition offset) ≤ σ.opened.countP (Covers partition offset) ∧
      (σ.aggregated ++ messagesOf σ.flushes).countP (IsAt partition offset)
        ≤ σ.pushed.countP (IsAt partition offset) := by
  intro σ
  have hcovered : σ.Persisted cfg found ∧ σ.Covered cfg partition offset := by
    refine run_induction (P := fun σ => σ.Persisted cfg found ∧ σ.Covered cfg partition offset)
      ⟨⟨fun _ _ _ => trivial, fun _ => Or.inl rfl⟩, ?_⟩
      (fun _ _ h hmoves => ⟨h.1.moves hmoves, h.2.moves h.1 hmoves⟩) actions
    unfold Covered pendingCount pendingAt
    simp [init, Memory.new, pending]
  have hcounted : σ.CountedOnce partition offset :=
    run_induction (P := CountedOnce partition offset) (Nat.le_refl 0)
      (fun _ _ h hmoves => h.moves hmoves) actions
  have hcovered := hcovered.2
  unfold Covered at hcovered
  unfold CountedOnce at hcounted
  rw [List.countP_append]
  constructor <;> omega

/-- A message is put on the queue, the stream fails before an offset is
saved, and the next stream delivers it again. -/
def reconnectActions : List Action :=
  [.load 0, .receive 0 0, .put 0, .save 0, .drain 1, .streamError 0,
    .load 0, .receive 0 0, .put 0, .drain 2]

/-- **A message may be pushed twice** without a crash. -/
theorem not_pushed_once : ¬ ∀ (cfg : Config) (feed : Feed) (found : Offsets) (start : ℚ)
    (actions : List Action), (∀ now, Action.restart now ∉ actions) →
      ∀ partition offset,
        (run cfg feed found start actions).pushed.countP (IsAt partition offset) ≤ 1 := by
  intro h
  have hpushed := h oneConfig emptyFeed (fun _ => none) 0 reconnectActions
    (by simp [reconnectActions]) (partitionName (ascii "NA") (ascii "GOLD")) 0
  exact absurd hpushed (by decide)

end Processor

end TftAnalytics

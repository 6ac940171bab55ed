import TftAnalytics.Processor.Model.Aggregator
import TftAnalytics.Processor.Model.Reorder
/-!
# Processor — subscribers, the main loop and flushes

`main.py`. A subscriber thread for each partition puts the messages of its
stream on the queue and saves an offset now and then; the main thread
drains the queue into the reorder buffer, aggregates what that releases,
and flushes the aggregate to the store. Only the offset files outlive the
process. The threads interleave in any order, a stream may fail at any
point, and the process may crash and start again at any point.
-/

namespace TftAnalytics

namespace Processor

open Metastore (VectorClock StatEntry clockMap counter)

/-- The environment of a processor, and the table of champion costs. -/
structure Config where
  nodeId : GoString
  regions : List GoString
  tiers : List GoString
  flushInterval : ℚ
  flushThreshold : ℤ
  championCost : GoString → ℕ

/-- `f"{TOPIC_RAW_MATCHES}/{region}/{tier}"`. -/
def partitionName (region tier : GoString) : GoString :=
  ascii "raw_matches/" ++ region ++ ascii "/" ++ tier

/-- The partitions of the subscriber threads, in the order in which the
threads are started. -/
def Config.partitions (cfg : Config) : List GoString :=
  cfg.regions.flatMap fun region => cfg.tiers.map fun tier => partitionName region tier

/-- What `ParseFromString` makes of the payload that a partition holds at
an offset, `none` where it raises. -/
abbrev Feed := GoString → ℤ → Option MatchEvent

/-- What a thread puts on the queue: `(partition, offset, event)`. -/
structure Message where
  partition : GoString
  offset : ℤ
  event : MatchEvent
  deriving DecidableEq

instance : HasClock Message := ⟨fun m => m.event.clock⟩

/-! ## Offsets -/

/-- `OffsetStore`: the offset files, by name. -/
abbrev Offsets := GoString → Option ℤ

/-- `_path`, in the directory: slashes become underscores. -/
def offsetPath (partition : GoString) : GoString :=
  (partition.map fun b => if b = 47 then 95 else b) ++ ascii ".offset"

/-- `load`. -/
def Offsets.load (offsets : Offsets) (partition : GoString) : ℤ :=
  (offsets (offsetPath partition)).getD 0

/-- `save`, which replaces the file in one step. -/
def Offsets.save (offsets : Offsets) (partition : GoString) (offset : ℤ) : Offsets :=
  Function.update offsets (offsetPath partition) (some offset)

/-! ## The merged clock -/

/-- A dictionary of counters. -/
abbrev Counters := AList fun _ : GoString => Int64

/-- `_merge_clock`. -/
def mergeClock (merged : Counters) (event : MatchEvent) : Counters :=
  (clockMap event.clock).entries.foldl
    (fun merged p => if counter merged p.1 < p.2 then merged.insert p.1 p.2 else merged) merged

/-- `pb.VectorClock(clocks=...)`. -/
def clockOfDict (dict : Counters) : VectorClock where
  clocks :=
    ⟨dict.entries.insertionSort fun p q => p.1 ≤ q.1,
      (List.perm_nodupKeys (List.perm_insertionSort _ _)).mpr dict.nodupKeys⟩
  sorted := sorted_insertionSort Sigma.fst dict.nodupKeys

/-! ## The process -/

/-- Where a subscriber thread is: at the top of its loop; in a stream that
has come so far; in `incoming.put`; after it. -/
inductive Stage where
  | loading
  | reading (lastSaved next : ℤ)
  | putting (lastSaved : ℤ) (m : Message)
  | putDone (lastSaved offset : ℤ)

/-- Where the main thread is: in the drain loop; before `pop_ready`; before
`_maybe_flush`; in the writes of a flush; ended by an exception. -/
inductive Main where
  | draining (drained : ℕ)
  | popping
  | maybeFlush
  | writing (clock : VectorClock) (entries : List Stat)
  | ended

/-- The memory of a running process. -/
structure Memory where
  threads : ℕ → Stage
  main : Main
  incoming : List Message
  reorder : ReorderBuffer Message
  aggregator : StatAggregator
  mergedClock : Counters
  flushSeq : ℕ
  lastFlush : ℚ

/-- `Processor()` and the start of `run`, at a time. -/
def Memory.new (now : ℚ) : Memory :=
  { threads := fun _ => .loading
    main := .draining 0
    incoming := []
    reorder := .new 30
    aggregator := .new
    mergedClock := ∅
    flushSeq := 0
    lastFlush := now }

/-- The size of the queue. -/
def queueSize : ℕ := 50000

/-- How many messages the main thread drains before it pops. -/
def drainLimit : ℕ := 5000

/-- How far a stream comes between two saves. -/
def saveEvery : ℤ := 50

/-- What `write` of an entry came to. -/
inductive WriteOutcome where
  | written
  | refused
  | raised

/-- What happens next: at a subscriber thread, in the main thread, or to
the process. Readings of the clock and the outcomes of calls come with
it. -/
inductive Action where
  | load (thread : ℕ)
  | receive (thread : ℕ) (offset : ℤ)
  | streamError (thread : ℕ)
  | put (thread : ℕ)
  | save (thread : ℕ)
  | saveError (thread : ℕ)
  | drain (now : ℚ)
  | stopDraining
  | popReady (now : ℚ)
  | maybeFlush (now : ℚ)
  | write (outcome : WriteOutcome)
  | finishFlush (now : ℚ)
  | restart (now : ℚ)

/-- A flush that has begun: in which life of the process, the messages it
counts, and its entries under their clock. -/
structure Flush where
  life : ℕ
  messages : List Message
  clock : VectorClock
  stats : List Stat

/-- The messages that flushes count. -/
def messagesOf (flushes : List Flush) : List Message := flushes.flatMap (·.messages)

/-- A processor with its offset files, and what has happened: the lives of
the process so far, the starts of streams, the messages delivered, pushed,
and aggregated since the last flush, the flushes, the writes of their
entries, the flushes that came to their end, and the messages that were in
memory at a crash. -/
structure Deployment where
  memory : Memory
  offsets : Offsets
  life : ℕ
  opened : List (GoString × ℤ)
  delivered : List Message
  pushed : List Message
  aggregated : List Message
  flushes : List Flush
  writes : List (VectorClock × Stat × WriteOutcome)
  sent : List Flush
  lost : List Message

/-- The message that a thread holds. -/
def Stage.held : Stage → List Message
  | .putting _ m => [m]
  | _ => []

namespace Deployment

/-- The first start, with the offset files found. -/
def init (offsets : Offsets) (now : ℚ) : Deployment :=
  { memory := .new now
    offsets := offsets
    life := 0
    opened := []
    delivered := []
    pushed := []
    aggregated := []
    flushes := []
    writes := []
    sent := []
    lost := [] }

/-- Thread `i` is at `stage`. -/
def goto (σ : Deployment) (i : ℕ) (stage : Stage) : Deployment :=
  { σ with memory := { σ.memory with threads := Function.update σ.memory.threads i stage } }

/-- The main thread is at `main`. -/
def proceed (σ : Deployment) (main : Main) : Deployment :=
  { σ with memory := { σ.memory with main := main } }

/-- The messages of the flush under way. -/
def underway (σ : Deployment) : List Message :=
  match σ.memory.main with
  | .writing _ _ => (σ.flushes.getLast?.map (·.messages)).getD []
  | _ => []

/-- The messages in memory: in the hands of the threads, on the queue, in
the reorder buffer, in the aggregate and in the flush under way. -/
def inMemory (cfg : Config) (σ : Deployment) : List Message :=
  (List.range cfg.partitions.length).flatMap (fun i => (σ.memory.threads i).held)
    ++ σ.memory.incoming ++ σ.memory.reorder.events ++ σ.aggregated ++ σ.underway

/-- A step of thread `i`, on its partition. -/
def stepThread (feed : Feed) (σ : Deployment) (i : ℕ) (partition : GoString) :
    Stage → Action → Deployment
  | .loading, .load _ =>
    let start := σ.offsets.load partition
    { σ.goto i (.reading start start) with opened := σ.opened ++ [(partition, start)] }
  | .reading lastSaved next, .receive _ offset =>
    if next ≤ offset then
      match feed partition offset with
      | some event =>
        let m := ⟨partition, offset, event⟩
        { σ.goto i (.putting lastSaved m) with delivered := σ.delivered ++ [m] }
      | none => σ.goto i .loading -- `ParseFromString` raises, and the loop starts over
    else σ
  | .reading _ _, .streamError _ => σ.goto i .loading
  | .putting lastSaved m, .put _ =>
    if σ.memory.incoming.length < queueSize then
      let σ := σ.goto i (.putDone lastSaved m.offset)
      { σ with memory := { σ.memory with incoming := σ.memory.incoming ++ [m] } }
    else σ
  | .putDone lastSaved offset, .save _ =>
    if saveEvery ≤ offset - lastSaved then
      { σ.goto i (.reading offset (offset + 1)) with
        offsets := σ.offsets.save partition (offset + 1) }
    else σ.goto i (.reading lastSaved (offset + 1))
  | .putDone lastSaved offset, .saveError _ =>
    -- the message is on the queue, and the offset is not saved
    if saveEvery ≤ offset - lastSaved then σ.goto i .loading else σ
  | _, _ => σ

/-- `_flush`, when something has been aggregated. A counter that the proto
cannot hold raises. -/
def flush (cfg : Config) (σ : Deployment) : Deployment :=
  let seq := σ.memory.flushSeq + 1
  if seq < 2 ^ 63 then
    let clock := clockOfDict (σ.memory.mergedClock.insert cfg.nodeId (Int64.ofNat seq))
    let (aggregator, stats) := σ.memory.aggregator.flush
    { σ with
      memory := { σ.memory with
        flushSeq := seq, aggregator := aggregator, main := .writing clock stats }
      aggregated := []
      flushes := σ.flushes ++ [⟨σ.life, σ.aggregated, clock, stats⟩] }
  else { σ with memory := { σ.memory with flushSeq := seq, main := .ended } }

/-- A step of the main thread. -/
def stepMain (cfg : Config) (σ : Deployment) : Main → Action → Deployment
  | .draining drained, .drain now =>
    match σ.memory.incoming with
    | m :: incoming =>
      if drained < drainLimit then
        { σ with
          memory := { σ.memory with
            main := .draining (drained + 1)
            incoming := incoming
            mergedClock := mergeClock σ.memory.mergedClock m.event
            reorder := σ.memory.reorder.push m now }
          pushed := σ.pushed ++ [m] }
      else σ
    | [] => σ
  | .draining drained, .stopDraining =>
    if σ.memory.incoming = [] ∨ drainLimit ≤ drained then σ.proceed .popping else σ
  | .popping, .popReady now =>
    let (reorder, ready) := σ.memory.reorder.popReady now
    { σ with
      memory := { σ.memory with
        main := .maybeFlush
        reorder := reorder
        aggregator := σ.memory.aggregator.processBatch cfg.championCost (ready.map (·.event)) }
      aggregated := σ.aggregated ++ ready }
  | .maybeFlush, .maybeFlush now =>
    if cfg.flushInterval ≤ now - σ.memory.lastFlush ∨
        cfg.flushThreshold ≤ σ.memory.aggregator.matchesSeen then
      if σ.memory.aggregator.matchesSeen = 0 then
        -- `_flush` with nothing aggregated only resets the timer
        { σ with memory := { σ.memory with main := .draining 0, lastFlush := now } }
      else σ.flush cfg
    else σ.proceed (.draining 0)
  | .writing clock (entry :: entries), .write outcome =>
    { σ.proceed (.writing clock entries) with
      writes := σ.writes ++ [(clock, entry, outcome)] }
  | .writing _ [], .finishFlush now =>
    { σ with
      memory := { σ.memory with main := .draining 0, lastFlush := now }
      sent := σ.sent ++ σ.flushes.getLast?.toList }
  | _, _ => σ

/-- The process crashes and starts again; once the main thread has ended,
that is all that can happen. -/
def restart (cfg : Config) (σ : Deployment) (now : ℚ) : Deployment :=
  { σ with
    memory := .new now
    life := σ.life + 1
    aggregated := []
    lost := σ.lost ++ σ.inMemory cfg }

/-- The thread that an action is of, none for the main thread. -/
def Action.thread : Action → Option ℕ
  | .load i | .receive i _ | .streamError i | .put i | .save i | .saveError i => some i
  | _ => none

/-- One step. An action that is not enabled changes nothing. -/
def step (cfg : Config) (feed : Feed) (σ : Deployment) (a : Action) : Deployment :=
  match a with
  | .restart now => σ.restart cfg now
  | a =>
    match σ.memory.main with
    | .ended => σ
    | main =>
      match Action.thread a with
      | some i =>
        match cfg.partitions[i]? with
        | some partition => σ.stepThread feed i partition (σ.memory.threads i) a
        | none => σ
      | none => σ.stepMain cfg main a

/-- A run. -/
def run (cfg : Config) (feed : Feed) (offsets : Offsets) (start : ℚ) (actions : List Action) :
    Deployment :=
  actions.foldl (step cfg feed) (init offsets start)

end Deployment

/-! ## A sample processor -/

/-- One partition. -/
def oneConfig : Config :=
  { nodeId := ascii "processor-1"
    regions := [ascii "NA"]
    tiers := [ascii "GOLD"]
    flushInterval := 60
    flushThreshold := 10000
    championCost := fun _ => 0 }

/-- A log of matches with no boards and no clock. -/
def emptyFeed : Feed := fun _ _ => some ⟨ascii "NA", [], ascii "GOLD", [], none⟩

end Processor

end TftAnalytics

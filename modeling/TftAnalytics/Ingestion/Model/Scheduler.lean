import TftAnalytics.Common.HeapOrder
import TftAnalytics.Common.Keyed
import TftAnalytics.Ingestion.Model.Match
/-!
# Ingestion — rounds of tasks

`Ingestor` of `main.py`: the loop that puts a task for every region and
tier on the queue and waits until all are done, and the workers that take
them. Coroutines change places at an `await` only, so what lies between two
of them is one step, and steps come in any order. A publish runs in a thread
of the executor: the broker may get the event before or after the worker
hears of it, or not at all.
-/

namespace TftAnalytics

namespace Ingestion

/-- `TIERS`. -/
def tiers : List GoString :=
  [ascii "IRON", ascii "BRONZE", ascii "SILVER", ascii "GOLD", ascii "PLATINUM", ascii "DIAMOND",
    ascii "MASTER", ascii "GRANDMASTER", ascii "CHALLENGER"]

/-- `TIER_RANK.get(tier, 99)`. -/
def tierRank (tier : GoString) : ℕ := held 99 tiers.reverse.zipIdx tier

/-- What is on the queue: `(priority, region, tier)`. -/
abbrev Task := ℕ × GoString × GoString

/-- How tasks compare. -/
def Task.lt : Task → Task → Bool :=
  Heapq.pairLt (fun m n => decide (m < n))
    (Heapq.pairLt (fun s t => decide (s < t)) fun s t => decide (s < t))

/-- `Ingestor`, with the tables of the generator, the digest it uses, and
the characters that `isdigit` takes. -/
structure Ingestor where
  nodeId : GoString
  regions : List GoString
  tiers : List GoString
  patches : List GoString
  matchesPerTask : ℤ
  synthetic : Bool
  td : Tables
  md5 : GoString → ℕ
  isDigit : Char → Bool

/-- The tasks of a round, in the order in which they are put. -/
def Ingestor.tasks (g : Ingestor) : List Task :=
  g.regions.flatMap fun region => g.tiers.map fun tier => (tierRank tier, region, tier)

/-- Where a worker is in its task: at the head of the loop of
`process_synthetic`; at `puuids_for_tier`; at `match_ids` of the first of
these players; or at `match` of the first of these matches, with the
players that come after. -/
inductive Place where
  | synthetic (left : ℕ)
  | listing
  | players (puuids : List GoString)
  | matches (mids puuids : List GoString)

/-- Where a worker is: at `queue.get`; in a task; at the publish of an event,
with the place to go on from; in the `finally` of a task that has raised or
not; or gone, since `task_done` raised. -/
inductive Worker where
  | waiting
  | working (task : Task) (place : Place)
  | publishing (task : Task) (event : PbMatchEvent) (place : Place)
  | done (task : Task) (raised : Bool)
  | dead

/-- A worker at a place; loops that have nothing left are over. -/
def Worker.at (task : Task) : Place → Worker
  | .synthetic 0 => .done task false
  | .players [] => .done task false
  | .matches [] [] => .done task false
  | .matches [] puuids => .working task (.players puuids)
  | place => .working task place

/-- Where `run` is: at the head of its loop, at `queue.join`, or asleep. -/
inductive RunPc where
  | loop
  | joining
  | sleeping

/-- The queue, the counter, `run`, its workers, and the events in the hands
of the executor that the broker has not got. -/
structure Scheduler (ι : Type) where
  queue : List Task
  unfinished : ℕ
  seq : ℕ
  pc : RunPc
  worker : ι → Worker
  sending : List PbMatchEvent

/-- What happens: a turn of `run`; a worker takes a task, generates a match,
or is answered, with `none` where the client raises; the broker gets one of
the events on their way; a publish returns or raises; `task_done`. -/
inductive TaskEvent (ι : Type) where
  | enqueue
  | joined
  | slept
  | get (i : ι)
  | generate (i : ι) (pick : ℕ) (draws : Fin 8 → Draw) (uuid : GoString) (now : Int64)
  | puuids (i : ι) (reply : Option (List GoString))
  | matchIds (i : ι) (reply : Option (List GoString))
  | gotMatch (i : ι) (reply : Option (Option RawMatch)) (now : ℤ)
  | accept (n : ℕ)
  | published (i : ι) (raised : Bool)
  | taskDone (i : ι)

/-- What can be seen: a round is put on the queue; a task is taken; a number
is drawn, with the event that it is for, if there is one; the broker has an
event; a task is over. -/
inductive TaskEntry (ι : Type) where
  | enqueued
  | started (i : ι) (task : Task)
  | drawn (i : ι) (task : Task) (seq : ℕ) (event : Option PbMatchEvent)
  | published (event : PbMatchEvent)
  | finished (i : ι) (task : Task) (raised : Bool)

namespace Scheduler

variable {ι : Type}

/-- Before the first round. -/
def init : Scheduler ι :=
  { queue := []
    unfinished := 0
    seq := 0
    pc := .loop
    worker := fun _ => .waiting
    sending := [] }

variable [DecidableEq ι]

/-- A worker goes on. -/
def goto (s : Scheduler ι) (i : ι) (w : Worker) : Scheduler ι :=
  { s with worker := Function.update s.worker i w }

/-- A number is drawn for a match: `none` where the match raises, and no
event where it has none. -/
def draw (s : Scheduler ι) (i : ι) (task : Task) (place : Place)
    (result : Option (Option PbMatchEvent)) : Scheduler ι × Option (TaskEntry ι) :=
  let s := { s with seq := s.seq + 1 }
  match result with
  | none => (s.goto i (.done task true), some (.drawn i task s.seq none))
  | some none => (s.goto i (.at task place), some (.drawn i task s.seq none))
  | some (some event) =>
    ({ s.goto i (.publishing task event place) with sending := s.sending ++ [event] },
      some (.drawn i task s.seq (some event)))

/-- The body of the loop of `process_synthetic`, up to the publish: no patch
to choose from raises, and so does a number that is no `int64`. -/
def synthesize (g : Ingestor) (task : Task) (seq pick : ℕ) (draws : Fin 8 → Draw)
    (uuid : GoString) (now : Int64) : Option (Option PbMatchEvent) := do
  let patch ← g.patches[pick % g.patches.length]?
  let seq ← int64 seq
  return some (generateMatch g.md5 g.td task.2.1 task.2.2 patch g.nodeId seq draws uuid now)

/-- One step, and what is seen of it; nothing where it cannot be taken. -/
def step (g : Ingestor) (s : Scheduler ι) : TaskEvent ι → Scheduler ι × Option (TaskEntry ι)
  | .enqueue =>
    match s.pc with
    | .loop =>
      ({ s with
          queue := g.tasks.foldl (Heapq.heappush Task.lt) s.queue
          unfinished := s.unfinished + g.tasks.length
          pc := .joining },
        some .enqueued)
    | _ => (s, none)
  | .joined =>
    match s.pc with
    | .joining => if s.unfinished = 0 then ({ s with pc := .sleeping }, none) else (s, none)
    | _ => (s, none)
  | .slept =>
    match s.pc with
    | .sleeping => ({ s with pc := .loop }, none)
    | _ => (s, none)
  | .get i =>
    match s.worker i, Heapq.heappop Task.lt s.queue with
    | .waiting, some (task, queue) =>
      let place := if g.synthetic then .synthetic g.matchesPerTask.toNat else .listing
      ({ s.goto i (.at task place) with queue := queue }, some (.started i task))
    | _, _ => (s, none)
  | .generate i pick draws uuid now =>
    match s.worker i with
    | .working task (.synthetic (left + 1)) =>
      s.draw i task (.synthetic left) (synthesize g task (s.seq + 1) pick draws uuid now)
    | _ => (s, none)
  | .puuids i reply =>
    match s.worker i, reply with
    | .working task .listing, some puuids => (s.goto i (.at task (.players puuids)), none)
    | .working task .listing, none => (s.goto i (.done task true), none)
    | _, _ => (s, none)
  | .matchIds i reply =>
    match s.worker i, reply with
    | .working task (.players (_ :: puuids)), some mids =>
      (s.goto i (.at task (.matches (mids.take 5) puuids)), none)
    | .working task (.players (_ :: _)), none => (s.goto i (.done task true), none)
    | _, _ => (s, none)
  | .gotMatch i reply now =>
    match s.worker i, reply with
    | .working task (.matches (_ :: _) _), none => (s.goto i (.done task true), none)
    | .working task (.matches (_ :: mids) puuids), some none =>
      (s.goto i (.at task (.matches mids puuids)), none)
    | .working task (.matches (_ :: mids) puuids), some (some raw) =>
      s.draw i task (.matches mids puuids)
        (normalize g.isDigit now task.2.1 task.2.2 g.nodeId (s.seq + 1 : ℕ) raw)
    | _, _ => (s, none)
  | .accept n =>
    match s.sending[n]? with
    | some event => ({ s with sending := s.sending.eraseIdx n }, some (.published event))
    | none => (s, none)
  | .published i raised =>
    match s.worker i with
    | .publishing task event place =>
      if raised then (s.goto i (.done task true), none)
      else if event ∈ s.sending then (s, none)
      else (s.goto i (.at task place), none)
    | _ => (s, none)
  | .taskDone i =>
    match s.worker i with
    | .done task raised =>
      if s.unfinished = 0 then (s.goto i .dead, none)
      else
        ({ s.goto i .waiting with unfinished := s.unfinished - 1 },
          some (.finished i task raised))
    | _ => (s, none)

/-- The ingestor as a machine that shows what can be seen. -/
def machine (g : Ingestor) : Machine (Scheduler ι) (TaskEvent ι) (TaskEntry ι) where
  next s ev := (s.step g ev).1
  report s ev := (s.step g ev).2

/-- The state after a run from the start. -/
def run (g : Ingestor) (evs : List (TaskEvent ι)) : Scheduler ι :=
  evs.foldl (machine g).next init

/-- What is seen of it. -/
def trace (g : Ingestor) (evs : List (TaskEvent ι)) : List (TaskEntry ι) :=
  (machine g).reports init evs

end Scheduler

/-! ## What a log says -/

section

variable {ι : Type}

/-- How many rounds have begun. -/
def rounds (log : List (TaskEntry ι)) : ℕ :=
  log.countP fun
    | .enqueued => true
    | _ => false

/-- The tasks that were taken, in this order. -/
def starts (log : List (TaskEntry ι)) : List Task :=
  log.filterMap fun
    | .started _ task => some task
    | _ => none

/-- The tasks that are over, in this order. -/
def finishes (log : List (TaskEntry ι)) : List Task :=
  log.filterMap fun
    | .finished _ task _ => some task
    | _ => none

/-- The numbers that were drawn, in this order. -/
def numbers (log : List (TaskEntry ι)) : List ℕ :=
  log.filterMap fun
    | .drawn _ _ seq _ => some seq
    | _ => none

/-- The events that were made, in this order. -/
def made (log : List (TaskEntry ι)) : List PbMatchEvent :=
  log.filterMap fun
    | .drawn _ _ _ event => event
    | _ => none

/-- The events that the broker has, in the order in which it got them. -/
def atBroker (log : List (TaskEntry ι)) : List PbMatchEvent :=
  log.filterMap fun
    | .published event => some event
    | _ => none

/-- What a worker has drawn since it took its task. -/
def lap [DecidableEq ι] (i : ι) (log : List (TaskEntry ι)) : List (Option PbMatchEvent) :=
  log.foldl
    (fun drawn c =>
      match c with
      | .started j _ => if j = i then [] else drawn
      | .drawn j _ _ event => if j = i then drawn ++ [event] else drawn
      | _ => drawn)
    []

end

end Ingestion

end TftAnalytics

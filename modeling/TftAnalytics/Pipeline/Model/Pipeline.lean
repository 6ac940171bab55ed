import TftAnalytics.Processor.Model.Processor
import TftAnalytics.Metastore.Model.Concurrent
/-!
# Pipeline — a processor and the node it writes to

A processor, and the tree of a metastore node that no other writes to. A
request of the processor may be lost, or reach the node at any later time,
also after the processor has given it up; a goroutine of the node then
serves it, with any others that write, read and flush.
-/

namespace TftAnalytics

namespace Pipeline

open Processor (Config Deployment Feed Offsets Stat WriteOutcome)
open Metastore (Env Shared StatEntry)

/-- The processor, the entries whose requests it has sent, and the node with
its goroutines. -/
structure System where
  processor : Deployment
  network : List StatEntry
  node : Shared

/-- What happens: a step of the processor that is no write; the request of
the write it is at is sent, reaches the node and is served by goroutine
`t`, or has come to its outcome at the processor; another call at
goroutine `t`; a goroutine goes on. -/
inductive Event where
  | process (a : Processor.Action)
  | send
  | deliver (t : ℕ) (entry : StatEntry)
  | answer (outcome : WriteOutcome)
  | flush (t : ℕ)
  | read (t : ℕ) (key : GoString)
  | advance (t : ℕ)

namespace System

/-- The first start of the processor, and an empty directory. -/
def init (env : Env) (maxMemBytes : ℤ) (found : Offsets) (start : ℚ) : System :=
  { processor := .init found start
    network := []
    node := .init env maxMemBytes }

/-- The entry that the processor writes next. -/
def offered (double : ℚ → UInt64) (p : System) : Option StatEntry :=
  match p.processor.memory.main with
  | .writing clock (s :: _) => some (s.toEntry double clock)
  | _ => none

/-- Success is answered once `lsm.Write` has returned `nil`. Of a refusal or
an exception nothing is known. -/
def mayAnswer (p : System) (e : StatEntry) : WriteOutcome → Bool
  | .written => decide (e ∈ p.node.returned)
  | .refused | .raised => true

/-- One step. An event that is not enabled changes nothing. -/
def step (env : Env) (cfg : Config) (feed : Feed) (double : ℚ → UInt64) (p : System) :
    Event → System
  | .process (.write _) => p
  | .process a => { p with processor := p.processor.step cfg feed a }
  | .send =>
    match p.offered double with
    | none => p
    | some e => { p with network := e :: p.network }
  | .deliver t e => if e ∈ p.network then { p with node := p.node.step env (t, .write e) } else p
  | .answer outcome =>
    match p.offered double with
    | none => p
    | some e =>
      if p.mayAnswer e outcome then
        { p with processor := p.processor.step cfg feed (.write outcome) }
      else p
  | .flush t => { p with node := p.node.step env (t, .flush) }
  | .read t key => { p with node := p.node.step env (t, .read key) }
  | .advance t => { p with node := p.node.step env (t, .advance) }

/-- A run. -/
def run (env : Env) (maxMemBytes : ℤ) (cfg : Config) (feed : Feed) (double : ℚ → UInt64)
    (found : Offsets) (start : ℚ) (events : List Event) : System :=
  events.foldl (step env cfg feed double) (init env maxMemBytes found start)

end System

end Pipeline

end TftAnalytics

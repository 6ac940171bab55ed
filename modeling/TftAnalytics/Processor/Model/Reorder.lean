import TftAnalytics.Common.Heapq
import TftAnalytics.Processor.Model.Event
import Mathlib.Data.List.Sort
import Mathlib.Data.Rat.Defs
import Mathlib.Algebra.Order.Ring.Unbundled.Rat
/-!
# Processor — the reorder buffer

`reorder.py`: a heap of held events, and for each node the watermark of
what has been delivered. An event is ready once no component of its clock
exceeds the watermark by more than one; what is held for the timeout is
released anyway. Time is a rational number of seconds, passed in where
the source reads the clock.
-/

namespace TftAnalytics

namespace Processor

variable {ε : Type} [HasClock ε]

/-- `_vc_sum`: the total of the components. -/
def vcSum (event : ε) : ℤ := ((clockItems event).map (·.2)).sum

/-- What the heap holds: `(vc_sum, counter, arrival_ts, event)`. -/
structure Item (ε : Type) where
  vcSum : ℤ
  counter : ℕ
  arrival : ℚ
  event : ε

/-- Tuples compare by the sum, then by the counter; no two items of a
buffer share a counter. -/
def Item.lt (a b : Item ε) : Bool :=
  a.vcSum < b.vcSum || (a.vcSum == b.vcSum && a.counter < b.counter)

/-- `ReorderBuffer`. -/
structure ReorderBuffer (ε : Type) where
  timeout : ℚ
  heap : List (Item ε)
  counter : ℕ
  delivered : GoString → ℤ
  forced : ℕ

/-- `_is_ready`: no component is more than one above the watermark. -/
def isReady (delivered : GoString → ℤ) (event : ε) : Bool :=
  (clockItems event).all fun p => !decide (delivered p.1 + 1 < p.2)

/-- `_deliver`: the watermark moves up to the event's components. -/
def deliver (delivered : GoString → ℤ) (event : ε) : GoString → ℤ :=
  (clockItems event).foldl
    (fun delivered p =>
      if delivered p.1 < p.2 then Function.update delivered p.1 p.2 else delivered)
    delivered

/-- A `pop_ready` under way: the watermark and the count of forced events,
what is to be returned, what is kept, and whether the pass over the heap
released anything. -/
structure Pass (ε : Type) where
  delivered : GoString → ℤ
  forced : ℕ
  out : List ε
  keep : List (Item ε)
  progressed : Bool

namespace ReorderBuffer

/-- `ReorderBuffer(timeout)`. -/
def new (timeout : ℚ) : ReorderBuffer ε := ⟨timeout, [], 0, fun _ => 0, 0⟩

/-- The events held, in the order of the heap. -/
def events (rb : ReorderBuffer ε) : List ε := rb.heap.map (·.event)

/-- `push`, at a time. -/
def push (rb : ReorderBuffer ε) (event : ε) (now : ℚ) : ReorderBuffer ε :=
  { rb with
    heap := Heapq.heappush Item.lt rb.heap ⟨vcSum event, rb.counter, now, event⟩
    counter := rb.counter + 1 }

/-- The body of the `for` loop of `pop_ready`. -/
def visit (timeout now : ℚ) (p : Pass ε) (item : Item ε) : Pass ε :=
  if isReady p.delivered item.event then
    { p with
      delivered := deliver p.delivered item.event
      out := p.out ++ [item.event]
      progressed := true }
  else if timeout ≤ now - item.arrival then
    { p with
      delivered := deliver p.delivered item.event
      out := p.out ++ [item.event]
      forced := p.forced + 1
      progressed := true }
  else { p with keep := p.keep ++ [item] }

/-- One pass over the heap. -/
def scan (timeout now : ℚ) (p : Pass ε) : Pass ε :=
  p.keep.foldl (visit timeout now) { p with keep := [], progressed := false }

/-- The `while` loop. Each pass that releases an event shortens the heap,
so the heap's length bounds the passes. -/
def settle (timeout now : ℚ) : ℕ → Pass ε → Pass ε
  | 0, p => p
  | fuel + 1, p =>
    if p.progressed ∧ p.keep ≠ [] then settle timeout now fuel (scan timeout now p) else p

/-- `pop_ready`, at a time: the buffer left, and the events released,
sorted by the sums of their clocks. Python's sort is stable. -/
def popReady (rb : ReorderBuffer ε) (now : ℚ) : ReorderBuffer ε × List ε :=
  let p := settle rb.timeout now (rb.heap.length + 1)
    ⟨rb.delivered, rb.forced, [], rb.heap, true⟩
  ({ rb with
      heap := Heapq.heapify Item.lt p.keep
      delivered := p.delivered
      forced := p.forced },
    p.out.insertionSort fun a b => vcSum a ≤ vcSum b)

end ReorderBuffer

end Processor

end TftAnalytics

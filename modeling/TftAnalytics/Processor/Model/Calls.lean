import TftAnalytics.Processor.Model.Reorder
/-!
# Processor — the calls on a reorder buffer

The calls that the drain loop makes, in any sequence and at any times, on
a buffer of events that are told apart by the number of their push; and
the causal order that the buffer is for.
-/

namespace TftAnalytics

namespace Processor

variable {ε : Type} [HasClock ε]

/-- An event with the number of its push, which the buffer does not
read. -/
structure Numbered (ε : Type) where
  number : ℕ
  event : ε
  deriving DecidableEq

instance : HasClock (Numbered ε) := ⟨fun x => HasClock.clock x.event⟩

/-- A call on a reorder buffer, at a time. -/
inductive Call (ε : Type) where
  | push (event : ε) (now : ℚ)
  | popReady (now : ℚ)

/-- A buffer in use: what has been pushed, what had been when `pop_ready`
was last called, and what the calls have returned, in order. -/
structure Usage (ε : Type) where
  buffer : ReorderBuffer (Numbered ε)
  pushed : List (Numbered ε)
  settled : List (Numbered ε)
  delivered : List (Numbered ε)

namespace Usage

/-- A new buffer. -/
def init (timeout : ℚ) : Usage ε := ⟨ReorderBuffer.new timeout, [], [], []⟩

/-- One call. -/
def step (u : Usage ε) : Call ε → Usage ε
  | .push event now =>
    { u with
      buffer := u.buffer.push ⟨u.pushed.length, event⟩ now
      pushed := u.pushed ++ [⟨u.pushed.length, event⟩] }
  | .popReady now =>
    { u with
      buffer := (u.buffer.popReady now).1
      settled := u.pushed
      delivered := u.delivered ++ (u.buffer.popReady now).2 }

/-- A sequence of calls. -/
def run (timeout : ℚ) (calls : List (Call ε)) : Usage ε := calls.foldl step (init timeout)

end Usage

/-- The events that a sequence of calls pushes, in order. -/
def pushes (calls : List (Call ε)) : List ε :=
  calls.filterMap fun
    | .push event _ => some event
    | .popReady _ => none

/-- **The causal order of events**: no component of the clock larger, and
one different. -/
def Precedes (a b : ε) : Prop :=
  (∀ node, seqOf a node ≤ seqOf b node) ∧ ∃ node, seqOf a node ≠ seqOf b node

/-- **Causal delivery**: an event comes out after those pushed that
precede it. -/
def Usage.Causal (u : Usage ε) : Prop :=
  ∀ a ∈ u.pushed, ∀ b ∈ u.delivered, Precedes a b → [a, b].Sublist u.delivered

/-- An event that can come out of a buffer in which these events, and no
others, have been pushed: each of its components is at most one, or at
most one more than that of an event that can come out. -/
inductive Releasable (events : List ε) : ε → Prop
  | of (e : ε) (he : e ∈ events) (before : GoString → ε)
      (hbefore : ∀ node, 1 < seqOf e node → Releasable events (before node))
      (hnext : ∀ node, 1 < seqOf e node → seqOf e node ≤ seqOf (before node) node + 1) :
      Releasable events e

/-- **No late push**: when an event is pushed after a `pop_ready`, what
could come out by then did not have it in its past. -/
def InTime (calls : List (Call ε)) : Prop :=
  ∀ before now mid a now' rest,
    calls = before ++ .popReady now :: (mid ++ .push a now' :: rest) →
      ∀ b, Releasable (pushes before) b → ¬ Precedes a b

end Processor

end TftAnalytics

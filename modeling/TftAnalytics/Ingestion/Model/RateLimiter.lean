import Mathlib.Data.NNRat.Defs
import Mathlib.Logic.Function.Basic
/-!
# Ingestion — the rate limiter

`rate_limiter.py`. No turn of its loops waits while it holds the lock, so
each turn is one step: a turn of `acquire` takes a token or has its worker
sleep, and a turn of `_refill_loop` gives all tokens back. Calls of
`acquire` are numbered, and workers may have any number of them. Times are
seconds, and a sleep may last longer than it was asked to.
-/

namespace TftAnalytics

namespace Ingestion

/-- `RateLimiter`. -/
structure RateLimiter where
  tokens : ℤ
  rate : ℤ
  deriving DecidableEq

namespace RateLimiter

/-- `RateLimiter(rate)`. -/
def new (rate : ℤ) : RateLimiter := { tokens := rate, rate := rate }

/-- A turn of the loop of `acquire`, and whether it returns. -/
def acquireTurn (l : RateLimiter) : RateLimiter × Bool :=
  if l.tokens > 0 then ({ l with tokens := l.tokens - 1 }, true) else (l, false)

/-- What a turn of `_refill_loop` does. -/
def refill (l : RateLimiter) : RateLimiter := { l with tokens := l.rate }

end RateLimiter

/-- A limiter and its callers: the clock, when the refill loop is awake
again, if it was started, and when each call is; the calls that have
returned and when tokens were acquired; and when calls had turns, those
before the last refill by the refills between them. -/
structure Limited where
  limiter : RateLimiter
  clock : ℚ
  refillAt : Option ℚ
  wake : ℕ → ℚ
  finished : List ℕ
  acquired : List ℚ
  earlier : List (List ℚ)
  turns : List ℚ

/-- What happens: time goes by, `start`, a refill, and a turn of a call. -/
inductive LimitedEvent where
  | advance (d : ℚ≥0)
  | start
  | refill
  | turn (call : ℕ)

namespace Limited

/-- A new limiter, before any call. -/
def init (rate : ℤ) (now : ℚ) : Limited :=
  { limiter := .new rate
    clock := now
    refillAt := none
    wake := fun _ => now
    finished := []
    acquired := []
    earlier := []
    turns := [] }

/-- One event. Loops that sleep, and calls that have returned, have no
turn. -/
def step (σ : Limited) : LimitedEvent → Limited
  | .advance d => { σ with clock := σ.clock + d }
  | .start =>
    match σ.refillAt with
    | none => { σ with refillAt := some (σ.clock + 1) }
    | some _ => σ
  | .refill =>
    match σ.refillAt with
    | none => σ
    | some awake =>
      if σ.clock < awake then σ
      else
        { σ with
          limiter := σ.limiter.refill
          refillAt := some (σ.clock + 1)
          earlier := σ.earlier ++ [σ.turns]
          turns := [] }
  | .turn call =>
    if call ∈ σ.finished ∨ σ.clock < σ.wake call then σ
    else
      let turn := σ.limiter.acquireTurn
      if turn.2 then
        { σ with
          limiter := turn.1
          finished := σ.finished ++ [call]
          acquired := σ.acquired ++ [σ.clock]
          turns := σ.turns ++ [σ.clock] }
      else
        { σ with
          limiter := turn.1
          wake := Function.update σ.wake call (σ.clock + 1 / 20)
          turns := σ.turns ++ [σ.clock] }

/-- A run. -/
def run (rate : ℤ) (now : ℚ) (evs : List LimitedEvent) : Limited := evs.foldl step (init rate now)

/-- When calls had turns, by the refills between them. -/
def periods (σ : Limited) : List (List ℚ) := σ.earlier ++ [σ.turns]

end Limited

end Ingestion

end TftAnalytics

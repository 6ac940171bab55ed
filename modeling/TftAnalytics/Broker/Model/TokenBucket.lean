import Mathlib.Data.Rat.Floor
import Mathlib.Data.NNRat.Defs
import Mathlib.Logic.Function.Basic
/-!
# Broker — the token bucket

`tokenbucket.go`, over rational numbers. A turn of the loop of `Take`
holds the mutex: it refills the bucket at its reading of the clock, and
takes a token or finds out how long to sleep. Calls are numbered, and each
has its turns whenever it is awake.
-/

namespace TftAnalytics

namespace Broker

/-- `TokenBucket`. Times are seconds. -/
structure TokenBucket where
  tokens : ℚ
  rate : ℚ
  capacity : ℚ
  last : ℚ
  deriving DecidableEq

/-- `NewTokenBucket`. -/
def newTokenBucket (ratePerSec now : ℚ) : TokenBucket :=
  { tokens := ratePerSec, rate := ratePerSec, capacity := ratePerSec, last := now }

/-- `consumerRateLimit`. -/
def consumerRateLimit : ℚ := 1000

namespace TokenBucket

/-- `refill`, at a reading of the clock. -/
def refill (b : TokenBucket) (now : ℚ) : TokenBucket :=
  let elapsed := now - b.last
  let tokens := b.tokens + elapsed * b.rate
  { b with last := now, tokens := if tokens > b.capacity then b.capacity else tokens }

/-- A `time.Duration` in whole nanoseconds, in seconds. -/
def duration (seconds : ℚ) : ℚ := (⌊seconds * 10 ^ 9⌋ : ℚ) / 10 ^ 9

/-- The sleep of a turn that finds no token, at least a millisecond. -/
def wait (b : TokenBucket) : ℚ :=
  let deficit := 1 - b.tokens
  let wait := duration (deficit / b.rate)
  if wait < 1 / 1000 then 1 / 1000 else wait

/-- A turn of the loop of `Take`: no sleep where it returns. -/
def turn (b : TokenBucket) (now : ℚ) : TokenBucket × Option ℚ :=
  let b := b.refill now
  if b.tokens ≥ 1 then ({ b with tokens := b.tokens - 1 }, none) else (b, some b.wait)

end TokenBucket

/-- A bucket and its callers: the clock, when each call is awake again, the
calls that have returned, and the readings of the clock they returned
at. -/
structure Throttle where
  bucket : TokenBucket
  clock : ℚ
  wake : ℕ → ℚ
  finished : List ℕ
  returns : List ℚ

/-- What happens: time goes by, and a call has a turn. -/
inductive ThrottleEvent where
  | advance (d : ℚ≥0)
  | turn (call : ℕ)

namespace Throttle

/-- A new bucket, before any call. -/
def start (ratePerSec now : ℚ) : Throttle :=
  { bucket := newTokenBucket ratePerSec now
    clock := now
    wake := fun _ => now
    finished := []
    returns := [] }

/-- One event. A call that sleeps, or has returned, has no turn. -/
def step (σ : Throttle) : ThrottleEvent → Throttle
  | .advance d => { σ with clock := σ.clock + d }
  | .turn call =>
    if call ∈ σ.finished ∨ σ.clock < σ.wake call then σ
    else
      match σ.bucket.turn σ.clock with
      | (bucket, none) =>
        { σ with
          bucket := bucket
          finished := σ.finished ++ [call]
          returns := σ.returns ++ [σ.clock] }
      | (bucket, some wait) =>
        { σ with bucket := bucket, wake := Function.update σ.wake call (σ.clock + wait) }

/-- A run. -/
def run (ratePerSec now : ℚ) (evs : List ThrottleEvent) : Throttle :=
  evs.foldl step (start ratePerSec now)

end Throttle

end Broker

end TftAnalytics

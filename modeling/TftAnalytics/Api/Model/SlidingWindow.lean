import TftAnalytics.Common.Bytes
import TftAnalytics.Common.Dict
import Mathlib.Algebra.Order.Floor.Defs
/-!
# API — the sliding window

`_SlidingWindow` of `security.py`: for every key a deque of the times of
the calls that were allowed. The lock makes each call of `allow` one step;
times are those of an ordered ring.
-/

namespace TftAnalytics

namespace Api

variable {K : Type}

/-- `_SlidingWindow`. -/
structure SlidingWindow (K : Type) where
  hits : List (GoString × List K)

/-- From this many keys on, empty deques are deleted. -/
def pruneAbove : ℕ := 4096

/-- `int` of a float: rounded towards zero. -/
def toInt [Ring K] [LinearOrder K] [FloorRing K] (x : K) : ℤ := if 0 ≤ x then ⌊x⌋ else ⌈x⌉

namespace SlidingWindow

/-- `_SlidingWindow()`. -/
def new : SlidingWindow K := { hits := [] }

/-- The opportunistic prune. -/
def prune (hits : List (GoString × List K)) : List (GoString × List K) :=
  if pruneAbove < hits.length then hits.filter fun p => !p.2.isEmpty else hits

variable [Ring K] [LinearOrder K] [FloorRing K]

/-- `allow` at a time: the limiter after it and what it returns; none where
`dq[0]` raises, on a limit of zero or less. -/
def allow (s : SlidingWindow K) (now : K) (key : GoString) (limit : ℤ) (window : K) :
    SlidingWindow K × Option (Bool × ℤ) :=
  let cutoff := now - window
  let hits := upsert [] (·.dropWhile (· < cutoff)) key s.hits
  let dq := held [] hits key
  if limit ≤ dq.length then
    ({ hits }, dq.head?.map fun first => (false, max 1 (toInt (window - (now - first)) + 1)))
  else ({ hits := prune (upsert [] (· ++ [now]) key hits) }, some (true, 0))

end SlidingWindow

/-- A call of `allow`. -/
structure Call (K : Type) where
  key : GoString
  time : K

/-- What the calls return, on one limiter, each key with its own limit and
window. -/
def answers [Ring K] [LinearOrder K] [FloorRing K] (limit : GoString → ℤ) (window : GoString → K) :
    SlidingWindow K → List (Call K) → List (Call K × Option (Bool × ℤ))
  | _, [] => []
  | s, c :: calls =>
    let r := s.allow c.time c.key (limit c.key) (window c.key)
    (c, r.2) :: answers limit window r.1 calls

end Api

end TftAnalytics

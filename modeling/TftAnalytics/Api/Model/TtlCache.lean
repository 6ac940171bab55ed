import TftAnalytics.Common.Keyed
import Mathlib.Algebra.Order.Group.Defs
/-!
# API — the cache in front of the store

`TTLCache` of `cache.py`, and the threads that call `get_or_compute`. The
lock makes a lookup, a store and `invalidate` one step each; the clock is
read before the first lock is taken, and `compute` runs between the two.
Times are those of an ordered group.
-/

namespace TftAnalytics

namespace Api

variable {ι κ T ν : Type}

/-- `TTLCache`: for every key when the call that computed its value read
the clock, and the value. -/
structure TTLCache (κ T ν : Type) where
  ttl : T
  store : List (κ × T × ν)

namespace TTLCache

/-- `TTLCache(ttl)`. -/
def new (ttl : T) : TTLCache κ T ν := { ttl, store := [] }

section

variable [DecidableEq κ]

/-- `self._store.get(key)`. -/
def get (c : TTLCache κ T ν) (key : κ) : Option (T × ν) := c.store.lookup key

/-- The first section under the lock: what it returns on a hit. -/
def hit [AddGroup T] [LinearOrder T] (c : TTLCache κ T ν) (key : κ) (now : T) : Option ν :=
  (c.get key).bind fun e => if now - e.1 < c.ttl then some e.2 else none

/-- The second section under the lock. -/
def put (c : TTLCache κ T ν) (key : κ) (now : T) (value : ν) : TTLCache κ T ν :=
  { c with store := upsert (now, value) (fun _ => (now, value)) key c.store }

end

/-- `invalidate`. -/
def invalidate (c : TTLCache κ T ν) : TTLCache κ T ν := { c with store := [] }

end TTLCache

/-- Where a thread is: outside; with the clock read; in `compute`, after a
miss; or with a value that it has not stored. -/
inductive CachePc (κ T ν : Type) where
  | idle
  | called (key : κ) (now : T)
  | missed (key : κ) (now : T)
  | computed (key : κ) (now : T) (value : ν)

/-- The cache and its threads. -/
structure Cached (ι κ T ν : Type) where
  cache : TTLCache κ T ν
  pc : ι → CachePc κ T ν

/-- What happens: a thread calls `get_or_compute` at a time, takes the lock
for its lookup, is handed what `compute` returns or raises, or takes the
lock to store; or `invalidate` is called. -/
inductive CacheEvent (ι κ T ν : Type) where
  | call (i : ι) (key : κ) (now : T)
  | look (i : ι)
  | computed (i : ι) (result : Option ν)
  | store (i : ι)
  | invalidate

/-- What can be seen of an event, with the time that the thread has read:
that a call begins; a value that `compute` returns; a value that
`get_or_compute` returns; that it raises. -/
inductive CacheEntry (ι κ T ν : Type) where
  | called (i : ι) (key : κ) (now : T)
  | computed (i : ι) (key : κ) (now : T) (value : ν)
  | returned (i : ι) (key : κ) (now : T) (value : ν)
  | raised (i : ι) (key : κ) (now : T)
  | invalidated

namespace Cached

/-- A cache that no thread has called. -/
def start (ttl : T) : Cached ι κ T ν := { cache := .new ttl, pc := fun _ => .idle }

variable [DecidableEq ι] [DecidableEq κ] [AddGroup T] [LinearOrder T]

/-- A thread goes on. -/
def goto (s : Cached ι κ T ν) (i : ι) (pc : CachePc κ T ν) : Cached ι κ T ν :=
  { s with pc := Function.update s.pc i pc }

/-- One event, and what is seen of it; nothing where the thread is
elsewhere. -/
def step (s : Cached ι κ T ν) : CacheEvent ι κ T ν → Cached ι κ T ν × Option (CacheEntry ι κ T ν)
  | .call i key now =>
    match s.pc i with
    | .idle => (s.goto i (.called key now), some (.called i key now))
    | _ => (s, none)
  | .look i =>
    match s.pc i with
    | .called key now =>
      match s.cache.hit key now with
      | some value => (s.goto i .idle, some (.returned i key now value))
      | none => (s.goto i (.missed key now), none)
    | _ => (s, none)
  | .computed i result =>
    match s.pc i, result with
    | .missed key now, some value =>
      (s.goto i (.computed key now value), some (.computed i key now value))
    | .missed key now, none => (s.goto i .idle, some (.raised i key now))
    | _, _ => (s, none)
  | .store i =>
    match s.pc i with
    | .computed key now value =>
      ({ s.goto i .idle with cache := s.cache.put key now value },
        some (.returned i key now value))
    | _ => (s, none)
  | .invalidate => ({ s with cache := s.cache.invalidate }, some .invalidated)

/-- The threads and the cache as a machine that shows what can be seen. -/
def machine : Machine (Cached ι κ T ν) (CacheEvent ι κ T ν) (CacheEntry ι κ T ν) where
  next s ev := (s.step ev).1
  report s ev := (s.step ev).2

/-- The state after a run. -/
def run (s : Cached ι κ T ν) (evs : List (CacheEvent ι κ T ν)) : Cached ι κ T ν :=
  evs.foldl machine.next s

/-- What is seen of a run. -/
def trace (s : Cached ι κ T ν) (evs : List (CacheEvent ι κ T ν)) : List (CacheEntry ι κ T ν) :=
  machine.reports s evs

end Cached

end Api

end TftAnalytics

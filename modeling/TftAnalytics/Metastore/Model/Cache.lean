import TftAnalytics.Common.Bytes
import Mathlib.Data.List.AList
/-!
# Metastore — the block cache

`lru.go`: a list of entries, most recently used first, and a map from
keys to the elements of that list. An element is a reference, so it
carries an identity of its own: the map names elements, not positions.
-/

namespace TftAnalytics

namespace Metastore

/-- An element of the recency list. -/
structure LRUElement where
  id : ℕ
  key : GoString
  value : Bytes
  deriving DecidableEq

/-- `LRUCache`; `next` is the identity the next new element gets. -/
structure LRUCache where
  capacity : ℤ
  ll : List LRUElement
  items : AList fun _ : GoString => ℕ
  next : ℕ

namespace LRUCache

/-- `NewLRUCache`. -/
def new (capacity : ℤ) : LRUCache :=
  { capacity := if capacity < 1 then 1 else capacity, ll := [], items := ∅, next := 0 }

/-- The element a reference stands for. -/
def element (c : LRUCache) (id : ℕ) : Option LRUElement := c.ll.find? (·.id = id)

/-- `ll.MoveToFront`. -/
def moveToFront (c : LRUCache) (id : ℕ) : LRUCache :=
  match c.element id with
  | none => c
  | some el => { c with ll := el :: c.ll.filter (·.id ≠ id) }

/-- `ll.Remove` and the deletion from the map that follows it. -/
def drop (c : LRUCache) (el : LRUElement) : LRUCache :=
  { c with ll := c.ll.filter (·.id ≠ el.id), items := c.items.erase el.key }

/-- `Get`: the cached value, refreshing its recency. -/
def get (c : LRUCache) (key : GoString) : Option Bytes × LRUCache :=
  match c.items.lookup key with
  | none => (none, c)
  | some id => ((c.element id).map (·.value), c.moveToFront id)

/-- `evict`: drops the least recently used entry. -/
def evict (c : LRUCache) : LRUCache :=
  match c.ll.getLast? with
  | none => c
  | some el => c.drop el

/-- `Put`. -/
def put (c : LRUCache) (key : GoString) (value : Bytes) : LRUCache :=
  match c.items.lookup key with
  | some id =>
    let c := c.moveToFront id
    { c with ll := c.ll.map fun el => if el.id = id then { el with value := value } else el }
  | none =>
    let c := { c with
      ll := ⟨c.next, key, value⟩ :: c.ll
      items := c.items.insert key c.next
      next := c.next + 1 }
    if (c.ll.length : ℤ) > c.capacity then c.evict else c

/-- `Remove`. -/
def remove (c : LRUCache) (key : GoString) : LRUCache :=
  match c.items.lookup key with
  | none => c
  | some id => { c with ll := c.ll.filter (·.id ≠ id), items := c.items.erase key }

end LRUCache

end Metastore

end TftAnalytics

import TftAnalytics.Common.Bytes
import Mathlib.Data.List.AList
import Mathlib.Data.List.Sort
import Mathlib.Data.Finset.Card
/-!
# Hasher — the consistent hash ring

`hashring.go`: a sorted slice of virtual-node hashes, a map from hashes to
the nodes that own them, and the set of nodes in the ring. The hash of
keys is a parameter; the program's is `crc32`.
-/

namespace TftAnalytics

namespace Hasher

/-- `strconv.Itoa` on a natural number. -/
def itoa (n : ℕ) : GoString := (Nat.toDigits 10 n).map fun c => UInt8.ofNat c.toNat

/-- One bit of the CRC-32 division, reflected, polynomial `0xEDB88320`. -/
def crcBit (c : UInt32) : UInt32 := if c &&& 1 = 1 then (c >>> 1) ^^^ 0xEDB88320 else c >>> 1

/-- `crc32.ChecksumIEEE`. -/
def crc32 (b : Bytes) : UInt32 :=
  (b.foldl (fun c x => crcBit^[8] (c ^^^ x.toUInt32)) 0xFFFFFFFF) ^^^ 0xFFFFFFFF

/-- `DefaultVirtualNodes`. -/
def DefaultVirtualNodes : ℕ := 150

/-- `HashRing`. -/
@[ext] structure HashRing where
  virtualNodes : ℕ
  ring : List UInt32
  nodeMap : AList fun _ : UInt32 => GoString
  nodes : Finset GoString

namespace HashRing

/-- `New`. -/
def new (virtualNodes : ℤ) : HashRing :=
  { virtualNodes := if virtualNodes ≤ 0 then DefaultVirtualNodes else virtualNodes.toNat
    ring := []
    nodeMap := ∅
    nodes := ∅ }

/-- `nodeMap[h]`: the empty string for a missing hash. -/
def owner (r : HashRing) (h : UInt32) : GoString := (r.nodeMap.lookup h).getD []

variable (hash : GoString → UInt32)

/-- The hash of the `i`-th virtual node of `addr`. -/
def slotHash (addr : GoString) (i : ℕ) : UInt32 := hash (addr ++ [35] ++ itoa i)

/-- The body of the loop of `AddNode`: a taken slot is skipped. -/
def addSlot (addr : GoString) (r : HashRing) (i : ℕ) : HashRing :=
  let h := slotHash hash addr i
  if h ∈ r.nodeMap then r
  else { r with nodeMap := r.nodeMap.insert h addr, ring := r.ring ++ [h] }

/-- `AddNode`. -/
def addNode (r : HashRing) (addr : GoString) : HashRing :=
  if addr ∈ r.nodes then r
  else
    let r := { r with nodes := insert addr r.nodes }
    let r := (List.range r.virtualNodes).foldl (addSlot hash addr) r
    { r with ring := r.ring.insertionSort (· ≤ ·) }

/-- `RemoveNode`. -/
def removeNode (r : HashRing) (addr : GoString) : HashRing :=
  if addr ∉ r.nodes then r
  else
    { r with
      nodes := r.nodes.erase addr
      ring := r.ring.filter fun h => r.owner h ≠ addr
      nodeMap := (r.ring.filter fun h => r.owner h = addr).foldl (fun m h => m.erase h) r.nodeMap }

/-- **The rings of a program**: of `New`, and by `AddNode` and `RemoveNode`
from there on. -/
inductive Reachable (virtualNodes : ℤ) : HashRing → Prop
  | new : Reachable virtualNodes (new virtualNodes)
  | addNode {r : HashRing} (addr : GoString) :
      Reachable virtualNodes r → Reachable virtualNodes (r.addNode hash addr)
  | removeNode {r : HashRing} (addr : GoString) :
      Reachable virtualNodes r → Reachable virtualNodes (r.removeNode addr)

/-- `search`: the index of the first slot at or behind `h`, around the end
of the ring. -/
def search (r : HashRing) (h : UInt32) : ℕ :=
  let idx := r.ring.findIdx (h ≤ ·)
  if idx = r.ring.length then 0 else idx

/-- `GetNode`. -/
def getNode (r : HashRing) (key : GoString) : GoString :=
  if r.ring = [] then [] else r.owner (r.ring.getD (r.search (hash key)) 0)

/-- The owners of the slots, clockwise from the one of `key`. -/
def walk (r : HashRing) (key : GoString) : List GoString :=
  (List.range r.ring.length).map fun i =>
    r.owner (r.ring.getD ((r.search (hash key) + i) % r.ring.length) 0)

/-- The loop of `GetNodes`: nodes not seen yet, until there are `n`. -/
def collect (n : ℕ) : List GoString → List GoString → List GoString
  | [], result => result
  | node :: rest, result =>
    if result.length < n then collect n rest (if node ∈ result then result else result ++ [node])
    else result

/-- `GetNodes`. -/
def getNodes (r : HashRing) (key : GoString) (n : ℤ) : List GoString :=
  if r.ring = [] ∨ n ≤ 0 then []
  else collect (min n.toNat r.nodes.card) (r.walk hash key) []

end HashRing

end Hasher

end TftAnalytics

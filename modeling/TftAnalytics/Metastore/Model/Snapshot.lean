import TftAnalytics.Metastore.Model.Background
import TftAnalytics.Metastore.Model.Cluster
import TftAnalytics.Metastore.Model.Patch
import Mathlib.Data.Finset.Sort
/-!
# Metastore — scans and reads of a whole cluster

What a coordinator answers while nothing else changes: `Scan` with its
fan-out to the peers, and `Read`, which is the calls of the cluster run
one after the other. A forwarded scan goes through the same handler as
the one of a client, and what it returns is merged.
-/

namespace TftAnalytics

namespace Metastore

/-- `ScanRequest`. -/
structure ScanRequest where
  entityType : GoString
  patch : GoString
  tier : GoString
  region : GoString
  limit : ℤ

/-- `scanPredicate`. -/
def scanPredicate (req : ScanRequest) (e : StatEntry) : Bool :=
  (req.entityType = [] || e.entityType = req.entityType) &&
    (req.patch = [] || e.patch = req.patch) &&
    (req.tier = [] || e.tier = req.tier) &&
    (req.region = [] || e.region = req.region)

/-- The order in which a loop over a Go map meets its values. -/
structure MapOrder where
  order : List StatEntry → List StatEntry
  perm : ∀ l, (order l).Perm l

/-- The name a node goes by. -/
def Node.self (nd : Node) : GoString := nd.member.host.self

/-- The peers `Scan` fans out to: `ring.Nodes()`, without itself and those
held dead. -/
def Node.scanPeers (nd : Node) : List GoString :=
  (nd.member.host.ring.nodes.sort (· ≤ ·)).filter fun peer => peer ≠ nd.self ∧ nd.isAlive peer

/-- **A cluster at rest**: the nodes that are up, the patch each holds
current and for how long it has been, the decay, and the order of map
iteration at each. -/
structure Snapshot where
  env : Env
  nodes : GoString → Option Node
  self_eq : ∀ n, ∀ nd ∈ nodes n, nd.self = n
  currentPatch : GoString → GoString
  age : ℕ
  decayedSampleSize : Int64 → ℕ → Int64
  order : GoString → MapOrder

namespace Snapshot

variable (s : Snapshot) (nd : Node) (req : ScanRequest)

/-- `applyDecay`, at a node. -/
def decay (e : StatEntry) : StatEntry :=
  applyDecay s.decayedSampleSize (s.currentPatch nd.self) s.age e

/-! ## Scans -/

/-- `s.lsm.Scan(match)`. -/
def lsmScan : List StatEntry :=
  (s.order nd.self).order
    ((nd.lsm.store.tree.scan s.env.codec (scanPredicate req)).entries.map (·.2))

/-- The end of `Scan`: the merged entries, decayed, up to the limit. -/
def reply (merged : AList fun _ : GoString => StatEntry) : List StatEntry :=
  let out := ((s.order nd.self).order (merged.entries.map (·.2))).map (s.decay nd)
  if 0 < req.limit ∧ req.limit < out.length then out.take req.limit.toNat else out

/-- `Scan`, forwarded. -/
def replicaScan : List StatEntry := s.reply nd req ((s.lsmScan nd req).foldl mergeEntry ∅)

/-- `remoteScan`: nothing from a node that is down. -/
def remoteScan (peer : GoString) : List StatEntry :=
  match s.nodes peer with
  | none => []
  | some nd => s.replicaScan nd req

/-- `Scan`, of a client. -/
def scan : List StatEntry :=
  s.reply nd req (nd.scanPeers.foldl
    (fun merged peer => (s.remoteScan req peer).foldl mergeEntry merged)
    ((s.lsmScan nd req).foldl mergeEntry ∅))

/-! ## Reads -/

/-- One turn of the loop of `Read`, up to the answer of the replica. -/
def ask (r : ReadCall) : ReadCall :=
  let r := r.look s.env nd
  match r.request with
  | none => r
  | some owner =>
    match s.nodes owner with
    | some replica => (r.serve s.env replica).report true
    | none => r.report false

/-- `Read`: the loop over the owners, and the decay of what it found. -/
def read (req : ReadRequest) : Option StatEntry :=
  let owners := nd.owners req.entityId
  ((s.ask nd)^[owners.length + 1] (.start nd.self nd.boots req owners)).best.map (s.decay nd)

end Snapshot

end Metastore

end TftAnalytics

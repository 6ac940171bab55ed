import TftAnalytics.Metastore.Model.Server
/-!
# Metastore — a cluster of servers

The nodes of a cluster and the calls of `Write` and `Read` that their
coordinators have under way, step by step: the loop over the owners, one
owner a step, the requests to replicas, and the answers, which come in any
order or not at all. A node may stop at any step and be started again; the
calls it coordinated are gone with it, the requests they sent are not. An
event that is not enabled changes nothing.
-/

namespace TftAnalytics

namespace Metastore

open Hasher Peers

/-- `replicaFactor`. -/
def replicaFactor : ℤ := 3

/-- `writeQuorum`. -/
def writeQuorum : ℕ := 2

/-- `readQuorum`. -/
def readQuorum : ℕ := 2

/-! ## Nodes -/

/-- A node: its process, the peers it is configured with, whether it is up,
and how often it was started again. -/
structure Node where
  member : Member Server
  peersEnv : List GoString
  up : Bool
  boots : ℕ

namespace Node

/-- `main`, on a tree. -/
def boot (self : GoString) (peersEnv : List GoString) (lsm : History) (boots : ℕ) : Node :=
  { member := .start self peersEnv (newServer self lsm (mainPeers self peersEnv))
    peersEnv := peersEnv
    up := true
    boots := boots }

/-- The history of the node's tree. -/
def lsm (nd : Node) : History := nd.member.host.lsm

/-- `s.ring.GetNodes(entityID, replicaFactor)`. -/
def owners (nd : Node) (entityId : GoString) : List GoString :=
  nd.member.host.ring.getNodes crc32 entityId replicaFactor

/-- `s.gossip.IsAlive`. -/
def isAlive (nd : Node) (addr : GoString) : Bool := nd.member.gossip.isAlive addr

/-- The event stops the machine. -/
def stops (env : Env) (nd : Node) : MemberEvent Action → Bool
  | .serve a =>
    match (a.exit env nd.lsm.store).1 with
    | .crashed _ => true
    | .returned _ _ => false
  | _ => false

/-- What an event does at a node: a node that is up takes part in it, and
one that is down is started again. -/
inductive Deed where
  | member (ev : MemberEvent Action)
  | restart

/-- A deed at a node. -/
def step (env : Env) (maxMemBytes : ℤ) (nd : Node) : Deed → Node
  | .member ev =>
    if nd.up then
      { nd with
        member := nd.member.step (serverHost env maxMemBytes) ev
        up := !nd.stops env ev }
    else nd
  | .restart => if nd.up then nd else boot nd.member.host.self nd.peersEnv nd.lsm (nd.boots + 1)

end Node

/-! ## Calls -/

/-- How a write to a tree goes: with these outcomes of a flush, or cut off
while it writes its records. -/
inductive Fate where
  | done (io : FlushOutcome)
  | torn (cut : ℕ)

/-- The action of a write of `e`. -/
def Fate.action (e : StatEntry) : Fate → Action
  | .done io => .write e io
  | .torn cut => .crashWrite e cut

/-- `replicaWrite` to one owner: what the replica answered, once it has
handled the request, and whether the coordinator has the result. -/
structure Rpc where
  owner : GoString
  served : Option Bool
  reported : Bool

/-- A call of `Write`: its coordinator and which run of it, the owners and
the count it needs, the owners the loop has not come to, the replicas
collected so far, and the count of acknowledgements. -/
structure WriteCall where
  self : GoString
  boot : ℕ
  entry : StatEntry
  owners : List GoString
  need : ℕ
  rest : List GoString
  remotes : List Rpc
  acks : ℕ

namespace WriteCall

/-- The call as it enters the loop. With no owners the entry is written
locally, which is a loop over the node itself. -/
def start (self : GoString) (boot : ℕ) (entry : StatEntry) (owners : List GoString) : WriteCall :=
  { self := self
    boot := boot
    entry := entry
    owners := owners
    need := if owners = [] then 1 else min writeQuorum owners.length
    rest := if owners = [] then [self] else owners
    remotes := []
    acks := 0 }

/-- The loop body on one owner. A machine that stops in it stays there. -/
def look (env : Env) (nd : Node) (fate : Fate) (w : WriteCall) : WriteCall :=
  match w.rest with
  | [] => w
  | owner :: rest =>
    if owner = w.self then
      match ((fate.action w.entry).exit env nd.lsm.store).1 with
      | .crashed _ => w
      | .returned _ err => { w with rest := rest, acks := if err then w.acks else w.acks + 1 }
    else if nd.isAlive owner then
      { w with rest := rest, remotes := w.remotes ++ [⟨owner, none, false⟩] }
    else { w with rest := rest }

/-- The node the loop body writes to itself. -/
def local? (w : WriteCall) : Option GoString := w.rest.head?.filter fun owner => owner = w.self

/-- A change of what is known about one replica. -/
def setRpc (w : WriteCall) (owner : GoString) (f : Rpc → Rpc) : WriteCall :=
  { w with remotes := w.remotes.map fun r => if r.owner = owner then f r else r }

/-- The request to a replica, sent when the loop is over, and not handled
yet. -/
def request (w : WriteCall) (owner : GoString) : Bool :=
  w.rest = [] ∧ ∃ r ∈ w.remotes, r.owner = owner ∧ r.served = none

/-- The replica handles the request. -/
def serve (env : Env) (nd : Node) (fate : Fate) (owner : GoString) (w : WriteCall) : WriteCall :=
  let ok :=
    match ((fate.action w.entry).exit env nd.lsm.store).1 with
    | .crashed _ => false
    | .returned _ err => !err
  w.setRpc owner fun r => { r with served := some ok }

/-- `resp.Success`, when the call has returned: as soon as there are acks
enough, or all results. -/
def outcome (w : WriteCall) : Option Bool :=
  if w.rest ≠ [] then none
  else if w.need ≤ w.acks then some true
  else if ∀ r ∈ w.remotes, r.reported then some false
  else none

/-- A result may come in: any failure, and a success that was answered. -/
def mayReport (w : WriteCall) (owner : GoString) (ok : Bool) : Bool :=
  w.rest = [] ∧ w.outcome = none ∧
    ∃ r ∈ w.remotes, r.owner = owner ∧ r.reported = false ∧ (ok → r.served = some true)

/-- The loop over the results takes one. -/
def report (owner : GoString) (ok : Bool) (w : WriteCall) : WriteCall :=
  { w.setRpc owner fun r => { r with reported := true } with
    acks := if ok then w.acks + 1 else w.acks }

end WriteCall

/-- `ReadRequest`. -/
structure ReadRequest where
  entityId : GoString
  patch : GoString
  tier : GoString
  region : GoString

/-- `readKey`. -/
def readKey (req : ReadRequest) : GoString :=
  req.entityId ++ [colon] ++ req.patch ++ [colon] ++ req.tier ++ [colon] ++ req.region

/-- The request for the key of an entry. -/
def StatEntry.request (e : StatEntry) : ReadRequest := ⟨e.entityId, e.patch, e.tier, e.region⟩

/-- `orderSelfFirst`. -/
def orderSelfFirst (self : GoString) (owners : List GoString) : List GoString :=
  (owners.filter fun o => o = self) ++ owners.filter fun o => o ≠ self

/-- A call of `Read`. `asked` is the replica that a request is under way to,
with the entry it has answered, once it has. -/
structure ReadCall where
  self : GoString
  boot : ℕ
  req : ReadRequest
  need : ℕ
  rest : List GoString
  asked : Option (GoString × Option (Option StatEntry))
  responses : ℕ
  best : Option StatEntry

namespace ReadCall

/-- The call as it enters the loop; with no owners the node reads itself. -/
def start (self : GoString) (boot : ℕ) (req : ReadRequest) (owners : List GoString) : ReadCall :=
  { self := self
    boot := boot
    req := req
    need := min readQuorum owners.length
    rest := if owners = [] then [self] else orderSelfFirst self owners
    asked := none
    responses := 0
    best := none }

/-- The entry a node's tree has for the request. -/
def find (env : Env) (nd : Node) (r : ReadCall) : Option StatEntry :=
  nd.lsm.read env (readKey r.req)

/-- One answer counted. -/
def count (e : Option StatEntry) (r : ReadCall) : ReadCall :=
  { r with responses := r.responses + 1, best := pickNewer r.best e }

/-- The loop body on one owner: the node's own tree, or a request to a
replica that it holds alive. -/
def look (env : Env) (nd : Node) (r : ReadCall) : ReadCall :=
  match r.asked, r.rest with
  | none, owner :: rest =>
    if owner = r.self then { r with rest := rest }.count (r.find env nd)
    else if nd.isAlive owner then { r with rest := rest, asked := some (owner, none) }
    else { r with rest := rest }
  | _, _ => r

/-- The node the loop body reads itself. -/
def local? (r : ReadCall) : Option GoString :=
  if r.asked = none then r.rest.head?.filter fun owner => owner = r.self else none

/-- The replica that a request is under way to. -/
def request (r : ReadCall) : Option GoString :=
  match r.asked with
  | some (owner, none) => some owner
  | _ => none

/-- The replica handles the request. -/
def serve (env : Env) (nd : Node) (r : ReadCall) : ReadCall :=
  { r with asked := r.asked.map fun a => (a.1, some (r.find env nd)) }

/-- The `break`, once the quorum has answered and there is a value. -/
def settle (r : ReadCall) : ReadCall :=
  if r.need ≤ r.responses ∧ r.best ≠ none then { r with rest := [] } else r

/-- `replicaRead` returns: with the replica's answer, or without one. -/
def report (ok : Bool) (r : ReadCall) : ReadCall :=
  match r.asked, ok with
  | some (_, some e), true => ({ r with asked := none }.count e).settle
  | some _, false => { r with asked := none }.settle
  | _, _ => r

/-- `resp.Entry`, when the call has returned, before it is decayed; it is
`nil` when `resp.Found` is false. There is no other outcome: the error is
`nil` in every case. -/
def outcome (r : ReadCall) : Option (Option StatEntry) :=
  if r.rest = [] ∧ r.asked = none then some r.best else none

end ReadCall

/-! ## The cluster -/

/-- The nodes, by identity, and the calls made so far. -/
structure Cluster where
  nodes : GoString → Option Node
  writes : List WriteCall
  reads : List ReadCall

/-- What happens in a cluster. Calls are named by their place in the list. -/
inductive Event where
  | member (n : GoString) (ev : MemberEvent Action)
  | restart (n : GoString)
  | startWrite (n : GoString) (entry : StatEntry)
  | writeLook (k : ℕ) (fate : Fate)
  | writeServe (k : ℕ) (owner : GoString) (fate : Fate)
  | writeReport (k : ℕ) (owner : GoString) (ok : Bool)
  | startRead (n : GoString) (req : ReadRequest)
  | readLook (k : ℕ)
  | readServe (k : ℕ)
  | readReport (k : ℕ) (ok : Bool)

namespace Cluster

/-- A configuration, started on empty directories. -/
def init (env : Env) (maxMemBytes : ℤ) (config : AList fun _ : GoString => List GoString) :
    Cluster :=
  { nodes := fun n => (config.lookup n).map fun peersEnv =>
      .boot n peersEnv (.init env maxMemBytes) 0
    writes := []
    reads := [] }

/-- A node that is up. -/
def running (c : Cluster) (n : GoString) : Option Node := (c.nodes n).filter fun nd => nd.up

/-- The node that coordinates a call, unless it has stopped since. -/
def coordinator (c : Cluster) (n : GoString) (boot : ℕ) : Option Node :=
  (c.running n).filter fun nd => nd.boots = boot

/-- **What an event does at which node.** -/
def deed (c : Cluster) : Event → Option (GoString × Node.Deed)
  | .member n ev => some (n, .member ev)
  | .restart n => some (n, .restart)
  | .writeLook k fate =>
    c.writes[k]?.bind fun w => (c.coordinator w.self w.boot).bind fun _ =>
      w.local?.map fun n => (n, .member (.serve (fate.action w.entry)))
  | .writeServe k owner fate =>
    c.writes[k]?.bind fun w =>
      if w.request owner then some (owner, .member (.serve (fate.action w.entry))) else none
  | .readLook k =>
    c.reads[k]?.bind fun r => (c.coordinator r.self r.boot).bind fun _ =>
      r.local?.map fun n => (n, .member (.serve (.read (readKey r.req))))
  | .readServe k =>
    c.reads[k]?.bind fun r =>
      r.request.map fun n => (n, .member (.serve (.read (readKey r.req))))
  | .startWrite _ _ | .writeReport _ _ _ | .startRead _ _ | .readReport _ _ => none

/-- The nodes after an event. -/
def stepNodes (env : Env) (maxMemBytes : ℤ) (c : Cluster) (ev : Event) (n : GoString) :
    Option Node :=
  match c.deed ev with
  | some (x, d) =>
    if n = x then (c.nodes n).map fun nd => nd.step env maxMemBytes d else c.nodes n
  | none => c.nodes n

/-- The calls of `Write` after an event. -/
def stepWrites (env : Env) (c : Cluster) : Event → List WriteCall
  | .startWrite n e =>
    c.writes ++ ((c.running n).map fun nd =>
      WriteCall.start n nd.boots e (nd.owners e.entityId)).toList
  | .writeLook k fate =>
    c.writes.modify k fun w =>
      match c.coordinator w.self w.boot with
      | some nd => w.look env nd fate
      | none => w
  | .writeServe k owner fate =>
    c.writes.modify k fun w =>
      match w.request owner, c.running owner with
      | true, some nd => w.serve env nd fate owner
      | _, _ => w
  | .writeReport k owner ok =>
    c.writes.modify k fun w =>
      match w.mayReport owner ok, c.coordinator w.self w.boot with
      | true, some _ => w.report owner ok
      | _, _ => w
  | _ => c.writes

/-- The calls of `Read` after an event. -/
def stepReads (env : Env) (c : Cluster) : Event → List ReadCall
  | .startRead n req =>
    c.reads ++ ((c.running n).map fun nd =>
      ReadCall.start n nd.boots req (nd.owners req.entityId)).toList
  | .readLook k =>
    c.reads.modify k fun r =>
      match c.coordinator r.self r.boot with
      | some nd => r.look env nd
      | none => r
  | .readServe k =>
    c.reads.modify k fun r =>
      match r.request.bind c.running with
      | some nd => r.serve env nd
      | none => r
  | .readReport k ok =>
    c.reads.modify k fun r =>
      match c.coordinator r.self r.boot with
      | some _ => r.report ok
      | none => r
  | _ => c.reads

/-- One event. -/
def step (env : Env) (maxMemBytes : ℤ) (c : Cluster) (ev : Event) : Cluster :=
  { nodes := c.stepNodes env maxMemBytes ev
    writes := c.stepWrites env ev
    reads := c.stepReads env ev }

/-- A run. -/
def run (env : Env) (maxMemBytes : ℤ) (c : Cluster) (evs : List Event) : Cluster :=
  evs.foldl (step env maxMemBytes) c

/-- The cluster of a configuration, after a run. -/
def after (env : Env) (maxMemBytes : ℤ) (config : AList fun _ : GoString => List GoString)
    (evs : List Event) : Cluster := (init env maxMemBytes config).run env maxMemBytes evs

/-- The history of a node's tree. -/
def lsm (c : Cluster) (n : GoString) : Option History := (c.nodes n).map Node.lsm

/-- **A node's tree has applied an entry**: a write of it there returned
`nil`. -/
def Applied (c : Cluster) (n : GoString) (e : StatEntry) : Prop :=
  ∃ h ∈ c.lsm n, e ∈ h.acked

end Cluster

end Metastore

end TftAnalytics

import TftAnalytics.Metastore.Model.Cluster
/-!
# Metastore — the calls of `Write`, with their goroutines

The calls of `Write` at all nodes, those of clients and those that
`replicaWrite` makes at a replica, which are handled by the same code and
are told apart by their metadata. A call that fans out starts a goroutine
for each replica; each makes its call, and sends its result into a channel
that the loop takes them from in the order in which they were sent. A
goroutine whose call is answered too late, or not at all, sends a failure.
What `Write` notes of the entry's patch is left out, since no answer of it
depends on that. An event that is not enabled changes nothing.
-/

namespace TftAnalytics

namespace Metastore

open Hasher Peers

/-! ## Metadata -/

/-- The metadata of a call: the values under each key. -/
abbrev Metadata := AList fun _ : GoString => List GoString

/-- `"x-replica"`. -/
def xReplica : GoString := [120, 45, 114, 101, 112, 108, 105, 99, 97]

/-- `isReplica`. -/
def isReplica (md : Metadata) : Bool :=
  ((md.lookup xReplica).bind List.head?) = some [49]

/-- `metadata.AppendToOutgoingContext(ctx, "x-replica", "1")`, from the
background context. -/
def replicaMetadata : Metadata := (∅ : Metadata).insert xReplica [[49]]

/-! ## Handlers -/

/-- A call of `Write`, under way or returned: its metadata, the call and
the replica of the goroutine that made it, the state of its loops, whether
`lsm.Write` returned `nil` at the node itself, the results its goroutines
have sent, in that order, and how many of these it has taken. -/
structure Handler where
  md : Metadata
  origin : Option (ℕ × GoString)
  call : WriteCall
  own : Bool
  results : List (GoString × Bool)
  taken : ℕ

namespace Handler

/-- The call as it comes in. A replica write goes to the node's own tree
and nowhere else, as a write does that has no owners. -/
def start (self : GoString) (nd : Node) (md : Metadata) (origin : Option (ℕ × GoString))
    (entry : StatEntry) : Handler :=
  { md := md
    origin := origin
    call := .start self nd.boots entry (if isReplica md then [] else nd.owners entry.entityId)
    own := false
    results := []
    taken := 0 }

/-- The loop body on one owner comes to the node itself, and `lsm.Write`
returns `nil`. -/
def stores (env : Env) (nd : Node) (fate : Fate) (h : Handler) : Bool :=
  h.call.local?.isSome &&
    match ((fate.action h.call.entry).exit env nd.lsm.store).1 with
    | .crashed _ => false
    | .returned _ err => !err

/-- The loop body on one owner. -/
def look (env : Env) (nd : Node) (fate : Fate) (h : Handler) : Handler :=
  { h with call := h.call.look env nd fate, own := h.own || h.stores env nd fate }

/-- The replica has answered the goroutine's call. -/
def answer (owner : GoString) (ok : Bool) (h : Handler) : Handler :=
  { h with call := h.call.setRpc owner fun r => { r with served := some ok } }

/-- A goroutine that has sent nothing may send any failure, and a success
that was answered. -/
def maySend (h : Handler) (owner : GoString) (ok : Bool) : Bool :=
  h.call.rest = [] ∧ owner ∉ h.results.map Prod.fst ∧
    ∃ r ∈ h.call.remotes, r.owner = owner ∧ (ok → r.served = some true)

/-- `results <- s.replicaWrite(owner, req.Entry)`. -/
def send (owner : GoString) (ok : Bool) (h : Handler) : Handler :=
  { h with results := h.results ++ [(owner, ok)] }

/-- The condition of the loop over the results. -/
def collecting (h : Handler) : Bool :=
  h.call.rest = [] ∧ h.taken < h.call.remotes.length ∧ h.call.acks < h.call.need

/-- `<-results`, and the loop body. It blocks while there is none. -/
def take (h : Handler) : Handler :=
  match h.results[h.taken]?, h.collecting with
  | some (owner, ok), true => { h with call := h.call.report owner ok, taken := h.taken + 1 }
  | _, _ => h

/-- `resp.Success`, when the call has returned. -/
def reply (h : Handler) : Option Bool :=
  if h.call.rest = [] ∧ h.collecting = false then some (h.call.need ≤ h.call.acks) else none

/-- How many of the replicas that were tried have a call that succeeded,
among those whose goroutines are done. -/
def succeeded (h : Handler) : ℕ :=
  h.call.remotes.countP fun r => (r.owner, true) ∈ h.results

end Handler

/-! ## All calls -/

/-- The nodes, and the calls of `Write` so far. -/
structure FanOut where
  nodes : GoString → Option Node
  handlers : List Handler

namespace FanOut

/-- What happens. Calls are named by their place in the list; one without
an entry is answered at once. -/
inductive Event where
  | member (n : GoString) (ev : MemberEvent Action)
  | restart (n : GoString)
  | write (n : GoString) (md : Metadata) (entry : Option StatEntry)
  | look (k : ℕ) (fate : Fate)
  | deliver (k : ℕ) (owner : GoString)
  | respond (k : ℕ)
  | send (k : ℕ) (owner : GoString) (ok : Bool)
  | take (k : ℕ)

/-- The nodes and the loops, as a cluster. -/
def cluster (s : FanOut) : Cluster :=
  { nodes := s.nodes, writes := s.handlers.map Handler.call, reads := [] }

/-- The node that runs a call, unless it has stopped since. -/
def runner (s : FanOut) (h : Handler) : Option Node := s.cluster.coordinator h.call.self h.call.boot

/-- The event of the nodes that an event is. -/
def Event.deed? : Event → Option Metastore.Event
  | .member n ev => some (.member n ev)
  | .restart n => some (.restart n)
  | .look k fate => some (.writeLook k fate)
  | _ => none

/-- The nodes after an event. -/
def stepNodes (env : Env) (maxMemBytes : ℤ) (s : FanOut) (ev : Event) : GoString → Option Node :=
  match ev.deed? with
  | some ev => s.cluster.stepNodes env maxMemBytes ev
  | none => s.nodes

/-- The call a goroutine makes, once. -/
def delivery (s : FanOut) (k : ℕ) (owner : GoString) : Option Handler :=
  s.handlers[k]?.bind fun h =>
    if h.call.request owner ∧ ∀ h' ∈ s.handlers, h'.origin ≠ some (k, owner) then
      (s.cluster.running owner).map fun nd =>
        .start owner nd replicaMetadata (some (k, owner)) h.call.entry
    else none

/-- The answer of a call to the goroutine that made it. -/
def response (s : FanOut) (k : ℕ) : Option ((ℕ × GoString) × Bool) :=
  s.handlers[k]?.bind fun h => h.origin.bind fun origin => h.reply.map fun ok => (origin, ok)

/-- The calls after an event. -/
def stepHandlers (env : Env) (s : FanOut) : Event → List Handler
  | .member _ _ | .restart _ => s.handlers
  | .write n md entry =>
    s.handlers ++ ((s.cluster.running n).bind fun nd =>
      entry.map fun e => Handler.start n nd md none e).toList
  | .look k fate =>
    s.handlers.modify k fun h =>
      match s.runner h with
      | some nd => h.look env nd fate
      | none => h
  | .deliver k owner => s.handlers ++ (s.delivery k owner).toList
  | .respond k =>
    match s.response k with
    | some ((p, owner), ok) => s.handlers.modify p (Handler.answer owner ok)
    | none => s.handlers
  | .send k owner ok =>
    s.handlers.modify k fun h =>
      match s.runner h, h.maySend owner ok with
      | some _, true => h.send owner ok
      | _, _ => h
  | .take k =>
    s.handlers.modify k fun h =>
      match s.runner h with
      | some _ => h.take
      | none => h

/-- One event. -/
def step (env : Env) (maxMemBytes : ℤ) (s : FanOut) (ev : Event) : FanOut :=
  { nodes := s.stepNodes env maxMemBytes ev, handlers := s.stepHandlers env ev }

/-- A run. -/
def run (env : Env) (maxMemBytes : ℤ) (s : FanOut) (evs : List Event) : FanOut :=
  evs.foldl (step env maxMemBytes) s

/-- The nodes of a configuration, after a run. -/
def after (env : Env) (maxMemBytes : ℤ) (config : AList fun _ : GoString => List GoString)
    (evs : List Event) : FanOut :=
  run env maxMemBytes { nodes := (Cluster.init env maxMemBytes config).nodes, handlers := [] } evs

end FanOut

end Metastore

end TftAnalytics

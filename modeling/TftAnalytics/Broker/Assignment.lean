import TftAnalytics.Broker.Model.Assignment
import TftAnalytics.Hasher.Placement
import TftAnalytics.Peers.Ring
/-!
# Broker — replicas under concurrent deaths

A partition may get targets that were computed before a peer left the
ring, but only from a `getPartition` that has `b.mu` from then on until
the partition is stored. The snapshot of the callback waits for it, so the
partition is in the snapshot, and the loop of the callback gives it the
targets of the ring that is left. What `replicaTargets` promises of one
ring then holds of every partition, whenever no callback is under way.
-/

namespace TftAnalytics

open Hasher

namespace Broker

/-! ## Targets of a ring -/

/-- The nodes other than the broker that own slots. -/
def others (b : Broker) : Finset GoString := b.ring.slotOwners.erase b.self

/-- **What `replicaTargets` promises**: no duplicates, never the broker,
nodes of the ring only, and as many as there are, up to the factor. -/
theorem replicaTargets_spec {b : Broker} (h : b.ring.Wf) (key : GoString) :
    (b.replicaTargets key).Nodup ∧ b.self ∉ b.replicaTargets key ∧
      (∀ a ∈ b.replicaTargets key, a ∈ b.ring.nodes) ∧
      (b.replicaTargets key).length = min (replicationFactor - 1) b.others.card := by
  set owners := b.ring.getNodes crc32 key (replicationFactor + 1) with howners
  have hnodup : owners.Nodup := HashRing.getNodes_nodup ..
  have hlen : owners.length = min (replicationFactor + 1) b.ring.slotOwners.card :=
    h.length_getNodes key _
  have hmem : ∀ a ∈ b.replicaTargets key, a ∈ owners ∧ a ≠ b.self := by
    intro a ha
    have := List.mem_of_mem_take ha
    simpa using this
  refine ⟨(hnodup.filter _).sublist (List.take_sublist ..), fun hself => (hmem _ hself).2 rfl,
    fun a ha => h.getNodes_subset (hmem a ha).1, ?_⟩
  -- the owners asked for are the first on a walk over all
  have hsub : owners.toFinset ⊆ b.ring.slotOwners := by
    intro a ha
    rw [howners, h.getNodes_eq, List.mem_toFinset] at ha
    rw [← HashRing.toFinset_walk crc32 b.ring key, List.mem_toFinset]
    exact List.mem_eraseDups.mp (List.mem_of_mem_take ha)
  have hcard : owners.toFinset.card = owners.length := List.toFinset_card_of_nodup hnodup
  have hrest : (owners.filter fun o => o ≠ b.self).length
      = (owners.toFinset.erase b.self).card := by
    rw [← List.toFinset_card_of_nodup (hnodup.filter _)]
    congr 1
    ext a
    simp [and_comm]
  have htake : (b.replicaTargets key).length
      = min (replicationFactor - 1) (owners.toFinset.erase b.self).card := by
    rw [← hrest]
    exact List.length_take
  rw [htake, others]
  rcases Nat.lt_or_ge (replicationFactor + 1) b.ring.slotOwners.card with hmany | hfew
  · -- more owners than asked for, of whom the broker is at most one
    have h₁ := Finset.pred_card_le_card_erase (s := owners.toFinset) (a := b.self)
    have h₂ := Finset.pred_card_le_card_erase (s := b.ring.slotOwners) (a := b.self)
    omega
  · have hall : owners.toFinset = b.ring.slotOwners :=
      Finset.eq_of_subset_of_card_le hsub (by omega)
    rw [hall]

/-! ## Runs -/

/-- A callback that has taken its snapshot, or none. -/
def Callback.Settled : Callback → Prop
  | .idle | .updating _ _ _ => True
  | .removed _ | .reading _ => False

/-- The keys whose targets a callback has still to assign. -/
def Callback.remaining : Callback → List GoString
  | .updating _ remaining _ => remaining
  | _ => []

/-- The peer a callback is for. -/
def Callback.addr? : Callback → Option GoString
  | .idle => none
  | .removed addr | .reading addr | .updating addr _ _ => some addr

namespace Assignment

/-- **What holds along every run**: the ring is without the peers that have
died; and where a callback has its snapshot, or none runs, the partitions
it is done with have the targets of the ring, and so do the targets that
are computed and not stored. -/
structure Inv (me : GoString) (σ : Assignment) : Prop where
  self_eq : σ.broker.self = me
  ring : σ.broker.ring.Wf
  completed : ∀ a ∈ σ.completed, a ∉ σ.broker.ring.nodes
  dying : ∀ a ∈ σ.callback.addr?, a ∉ σ.broker.ring.nodes
  reading : ∀ addr, σ.callback = .reading addr → σ.writer = none
  writer : σ.callback.Settled → ∀ key targets, σ.writer = some ⟨key, some targets⟩ →
    targets = σ.broker.replicaTargets key
  stored : σ.callback.Settled → ∀ key targets, σ.broker.partitions.lookup key = some targets →
    key ∉ σ.callback.remaining → targets = σ.broker.replicaTargets key
  next : ∀ addr key remaining targets,
    σ.callback = .updating addr (key :: remaining) (some targets) →
    targets = σ.broker.replicaTargets key

theorem inv_start (me : GoString) (peers : List GoString) : (start me peers).Inv me where
  self_eq := rfl
  ring := Peers.newRing_wf peers
  completed := by simp [start]
  dying := by simp [start, Callback.addr?]
  reading := by simp [start]
  writer := by simp [start]
  stored := by simp [start, newBroker]
  next := by simp [start]

variable {me : GoString} {σ : Assignment}

/-- What `getPartition` does with `b.mu`, before it stores. -/
theorem Inv.hold (h : σ.Inv me) (w : Option Writer)
    (hreading : ∀ addr, σ.callback = .reading addr → w = none)
    (hw : σ.callback.Settled → ∀ key targets, w = some ⟨key, some targets⟩ →
      targets = σ.broker.replicaTargets key) :
    Inv me { σ with writer := w } where
  self_eq := h.self_eq
  ring := h.ring
  completed := h.completed
  dying := h.dying
  reading := hreading
  writer := hw
  stored := h.stored
  next := h.next

/-- What `onPeerDead` does on the ring that is left. -/
theorem Inv.move (h : σ.Inv me) {before : Callback} (hcallback : σ.callback = before)
    (after : Callback) (hdying : ∀ a ∈ after.addr?, a ∈ before.addr?)
    (hreading : ∀ addr, after = .reading addr → σ.writer = none)
    (hsettled : after.Settled → before.Settled ∨ σ.writer = none)
    (hstored : after.Settled → ∀ key targets, σ.broker.partitions.lookup key = some targets →
      key ∉ after.remaining → targets = σ.broker.replicaTargets key)
    (hnext : ∀ addr key remaining targets,
      after = .updating addr (key :: remaining) (some targets) →
      targets = σ.broker.replicaTargets key) :
    Inv me { σ with callback := after } where
  self_eq := h.self_eq
  ring := h.ring
  completed := h.completed
  dying := by
    subst hcallback
    exact fun a ha => h.dying a (hdying a ha)
  reading := hreading
  writer := by
    subst hcallback
    intro hs key targets hw
    rcases hsettled hs with hs | hnone
    · exact h.writer hs key targets hw
    · rw [hnone] at hw
      cases hw
  stored := hstored
  next := hnext

/-- A partition gets targets of the ring, or has a callback to come. -/
theorem Inv.insert (h : σ.Inv me) {key : GoString} {targets : List GoString}
    (hcurrent : σ.callback.Settled → targets = σ.broker.replicaTargets key) :
    Inv me { σ with
      broker := { σ.broker with partitions := σ.broker.partitions.insert key targets } } where
  self_eq := h.self_eq
  ring := h.ring
  completed := h.completed
  dying := h.dying
  reading := h.reading
  writer := h.writer
  stored := by
    intro hs key' targets' hlookup hremaining
    by_cases hkey : key' = key
    · subst hkey
      rw [AList.lookup_insert] at hlookup
      obtain rfl := Option.some.inj hlookup
      exact hcurrent hs
    · rw [AList.lookup_insert_ne hkey] at hlookup
      exact h.stored hs key' targets' hlookup hremaining
  next := h.next

/-- A callback takes its peer off the ring. -/
theorem Inv.die (h : σ.Inv me) (addr : GoString) :
    Inv me { σ with
      broker := { σ.broker with ring := σ.broker.ring.removeNode addr }
      callback := .removed addr } where
  self_eq := h.self_eq
  ring := h.ring.removeNode addr
  completed := by
    intro a ha
    rw [HashRing.removeNode_nodes]
    exact fun hmem => h.completed a ha (Finset.mem_of_mem_erase hmem)
  dying := by
    intro a ha
    obtain rfl : addr = a := by simpa [Callback.addr?] using ha
    rw [HashRing.removeNode_nodes]
    exact Finset.notMem_erase addr _
  reading := fun _ heq => by cases heq
  writer := fun hs => hs.elim
  stored := fun hs => hs.elim
  next := fun _ _ _ _ heq => by cases heq

/-- **Every partition is in the snapshot**, and nobody holds targets. -/
theorem Inv.snapshot (h : σ.Inv me) {addr : GoString} (hcallback : σ.callback = .reading addr)
    {order : List GoString} (hperm : order.Perm σ.broker.partitions.keys) :
    Inv me { σ with callback := .updating addr order none } := by
  refine h.move hcallback _ (fun _ ha => ha) (fun _ heq => by cases heq)
    (fun _ => .inr (h.reading addr hcallback)) ?_ (fun _ _ _ _ heq => by cases heq)
  intro _ key targets hlookup hremaining
  have hmem : key ∈ σ.broker.partitions := by
    rw [← AList.lookup_isSome, hlookup]
    rfl
  exact absurd (hperm.mem_iff.mpr (AList.mem_keys.mp hmem)) hremaining

variable {addr key : GoString} {remaining : List GoString}

/-- The next partition gets its targets computed. -/
theorem Inv.retarget (h : σ.Inv me)
    (hcallback : σ.callback = .updating addr (key :: remaining) none) :
    Inv me { σ with
      callback := .updating addr (key :: remaining) (some (σ.broker.replicaTargets key)) } := by
  have hs : σ.callback.Settled := by rw [hcallback]; trivial
  refine h.move hcallback _ (fun _ ha => ha) (fun _ heq => by cases heq)
    (fun _ => .inl trivial) ?_ ?_
  · intro _ key' targets hlookup hremaining
    refine h.stored hs key' targets hlookup ?_
    rw [hcallback]
    exact hremaining
  · intro _ _ _ _ heq
    cases heq
    rfl

/-- The next partition gets its targets. -/
theorem Inv.assign (h : σ.Inv me) {newTargets : List GoString}
    (hcallback : σ.callback = .updating addr (key :: remaining) (some newTargets)) :
    Inv me { σ with
      broker := { σ.broker with partitions := σ.broker.partitions.insert key newTargets }
      callback := .updating addr remaining none } := by
  have hs : σ.callback.Settled := by rw [hcallback]; trivial
  have hnext : newTargets = σ.broker.replicaTargets key :=
    h.next addr key remaining newTargets hcallback
  have hinsert := h.insert fun _ => hnext
  refine hinsert.move hcallback _ (fun _ ha => ha) (fun _ heq => by cases heq)
    (fun _ => .inl trivial) ?_ (fun _ _ _ _ heq => by cases heq)
  intro _ key' targets hlookup hremaining
  by_cases hkey : key' = key
  · subst hkey
    have hsame := (AList.lookup_insert _).symm.trans hlookup
    obtain rfl := Option.some.inj hsame
    exact hnext
  · refine hinsert.stored hs key' targets hlookup ?_
    rw [hcallback]
    exact List.not_mem_cons_of_ne_of_not_mem hkey hremaining

/-- The loop is at its end. -/
theorem Inv.finish (h : σ.Inv me) {newTargets : Option (List GoString)}
    (hcallback : σ.callback = .updating addr [] newTargets) :
    Inv me { σ with callback := .idle, completed := σ.completed ++ [addr] } := by
  have hs : σ.callback.Settled := by rw [hcallback]; trivial
  have hmove : Inv me { σ with callback := .idle } := by
    refine h.move hcallback _ (fun _ ha => by cases ha) (fun _ heq => by cases heq)
      (fun _ => .inl trivial) ?_ (fun _ _ _ _ heq => by cases heq)
    intro _ key targets hlookup _
    refine h.stored hs key targets hlookup ?_
    rw [hcallback]
    exact List.not_mem_nil
  refine { hmove with completed := ?_ }
  intro a ha
  rcases List.mem_append.mp ha with ha | ha
  · exact h.completed a ha
  · obtain rfl := List.mem_singleton.mp ha
    exact h.dying a (by rw [hcallback]; rfl)

/-- **One event** keeps the invariant. -/
theorem Inv.step (h : σ.Inv me) (ev : AssignmentEvent) : (σ.step ev).Inv me := by
  cases ev with
  | lock key =>
    simp only [Assignment.step]
    split
    · exact h
    · exact h
    · rename_i hnone hcallback
      exact h.hold _ (fun addr haddr => absurd haddr (hcallback addr)) fun _ _ _ heq => by
        cases heq
  | leave =>
    simp only [Assignment.step]
    split
    · exact h.hold none (fun _ _ => rfl) fun _ _ _ heq => by cases heq
    · exact h
  | compute =>
    simp only [Assignment.step]
    split
    · rename_i key hw
      split_ifs
      · exact h
      -- the writer is there already, so no callback is at its snapshot
      · refine h.hold _ (fun addr haddr => ?_) fun _ _ _ heq => ?_
        · rw [h.reading addr haddr] at hw
          cases hw
        · cases heq
          rfl
    · exact h
  | store =>
    simp only [Assignment.step]
    split
    · rename_i key targets hw
      have hinsert := h.insert fun hs => h.writer hs key targets hw
      exact hinsert.hold none (fun _ _ => rfl) fun _ _ _ heq => by cases heq
    · exact h
  | die addr =>
    simp only [Assignment.step]
    split
    · exact h.die addr
    · exact h
  | rlock =>
    simp only [Assignment.step]
    split
    · rename_i addr hnone hcallback
      exact h.move hcallback _ (fun _ ha => ha) (fun _ _ => hnone) (fun hs => hs.elim)
        (fun hs => hs.elim) fun _ _ _ _ heq => by cases heq
    · exact h
  | snapshot order =>
    simp only [Assignment.step]
    split
    · rename_i addr hcallback
      split_ifs with hperm
      · exact h.snapshot hcallback hperm
      · exact h
    · exact h
  | retarget =>
    simp only [Assignment.step]
    split
    · rename_i addr key remaining hcallback
      exact h.retarget hcallback
    · exact h
  | assign =>
    simp only [Assignment.step]
    split
    · rename_i addr key remaining newTargets hcallback
      exact h.assign hcallback
    · exact h
  | finish =>
    simp only [Assignment.step]
    split
    · rename_i addr _ hcallback
      exact h.finish hcallback
    · exact h

/-- **Along every run.** -/
theorem inv_run (me : GoString) (peers : List GoString) (evs : List AssignmentEvent) :
    (run me peers evs).Inv me := by
  unfold run
  induction evs using List.reverseRecOn with
  | nil => exact inv_start me peers
  | append_singleton evs ev ih =>
    rw [List.foldl_append]
    exact ih.step ev

end Assignment

/-! ## Main results -/

/-- **Replicas are what the ring says.** For every broker and every run of
`getPartition` calls and callbacks, interleaved in any way the locks
allow: whenever no callback is under way, the replicas of each partition
have no duplicates, are neither the broker nor a peer whose callback has
returned, and are as many as the factor asks for or other nodes own
slots. -/
theorem replicas_of_idle (self : GoString) (peers : List GoString) (evs : List AssignmentEvent)
    (hidle : (Assignment.run self peers evs).callback = .idle) (key : GoString)
    (replicas : List GoString)
    (hlookup : (Assignment.run self peers evs).broker.partitions.lookup key = some replicas) :
    replicas.Nodup ∧ self ∉ replicas ∧
      (∀ a ∈ (Assignment.run self peers evs).completed, a ∉ replicas) ∧
      replicas.length
        = min (replicationFactor - 1) (Assignment.run self peers evs).broker.others.card := by
  have hinv := Assignment.inv_run self peers evs
  have hcurrent : replicas = (Assignment.run self peers evs).broker.replicaTargets key :=
    hinv.stored (by rw [hidle]; trivial) key replicas hlookup (by
      rw [hidle]
      exact List.not_mem_nil)
  obtain ⟨hnodup, hself, hnodes, hlen⟩ := replicaTargets_spec hinv.ring key
  rw [← hcurrent, hinv.self_eq] at hself
  rw [← hcurrent] at hnodup hnodes hlen
  exact ⟨hnodup, hself, fun a ha hmem => hinv.completed a ha (hnodes a hmem), hlen⟩

/-- A partition whose targets were computed before a peer died, and stored
after. -/
theorem replicas_of_idle_race :
    (Assignment.run [97] [[97], [98]] [.lock [107], .compute, .die [98], .store, .rlock,
        .snapshot [[107]], .retarget, .assign, .finish]).completed = [[98]] ∧
      ∃ replicas, (Assignment.run [97] [[97], [98]] [.lock [107], .compute, .die [98], .store,
          .rlock, .snapshot [[107]], .retarget, .assign, .finish]).broker.partitions.lookup [107]
            = some replicas ∧
        replicas.Nodup ∧ [97] ∉ replicas ∧ [98] ∉ replicas := by
  have h := replicas_of_idle [97] [[97], [98]] [.lock [107], .compute, .die [98], .store, .rlock,
    .snapshot [[107]], .retarget, .assign, .finish] rfl [107] _ rfl
  exact ⟨rfl, _, rfl, h.1, h.2.1, h.2.2.1 [98] (List.mem_singleton_self _)⟩

end Broker

end TftAnalytics

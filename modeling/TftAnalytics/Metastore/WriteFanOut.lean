import TftAnalytics.Metastore.Helpers.Handlers
import TftAnalytics.Metastore.Helpers.Trio
/-!
# Metastore — how a write counts its replicas

A write that fans out counts its own node's tree and the results of its
goroutines, in whatever order they come, and stops where it has enough.
What it answers is what it would have answered with all of them
(`write_fanOut`). A write that was forwarded goes to the tree of the node
it was forwarded to, and no further.
-/

namespace TftAnalytics

namespace Metastore

open Hasher Peers

namespace FanOut

variable {env : Env} {maxMemBytes : ℤ} {s : FanOut} {h : Handler} {k : ℕ}

/-! ## What a write answers -/

/-- **A write that counts right.** Its owners are never none; it tries each
replica once, takes at most one result for each, and answers whether the
owners that stored the entry, itself and the replicas that succeeded up to
whatever later time, are enough; and that many have applied it. -/
structure Counts (env : Env) (maxMemBytes : ℤ) (s : FanOut) (k : ℕ) (h : Handler) : Prop where
  owners : h.call.owners ≠ []
  tried : (h.call.remotes.map Rpc.owner).Nodup ∧
    ∀ r ∈ h.call.remotes, r.owner ∈ h.call.owners ∧ r.owner ≠ h.call.self
  own : h.own = true → h.call.self ∈ h.call.owners ∧ s.cluster.Applied h.call.self h.call.entry
  taken : h.taken ≤ h.call.remotes.length
  success : ∀ ok, h.reply = some ok → ∀ evs, ∃ h',
    (s.run env maxMemBytes evs).handlers[k]? = some h' ∧ h'.reply = some ok ∧
      (ok = true ↔ min writeQuorum h.call.owners.length ≤ h'.own.toNat + h'.succeeded)
  applied : h.reply = some true → ∃ t : Finset GoString,
    min writeQuorum h.call.owners.length ≤ t.card ∧
      ∀ x ∈ t, x ∈ h.call.owners ∧ s.cluster.Applied x h.call.entry

/-- **A write that ends**, as long as its node does not stop: it comes to
each owner once, and when its goroutines have sent, it takes no more than
they have. -/
structure Ends (env : Env) (maxMemBytes : ℤ) (s : FanOut) (k : ℕ) (h : Handler) : Prop where
  loop : ∀ fates : List Fate, fates.length = h.call.rest.length → ∃ h',
    (s.run env maxMemBytes (fates.map (.look k))).handlers[k]? = some h' ∧
      (h'.call.rest = [] ∨ (s.run env maxMemBytes (fates.map (.look k))).runner h' = none)
  results : (s.runner h).isSome → h.call.rest = [] →
    (∀ r ∈ h.call.remotes, r.owner ∈ h.results.map Prod.fst) → ∃ h', (s.run env maxMemBytes
      (List.replicate (h.call.remotes.length - h.taken) (.take k))).handlers[k]? = some h' ∧
        h'.reply ≠ none

theorem Sound.counts (hs : s.Sound) (hk : s.handlers[k]? = some h) (howners : h.call.owners ≠ []) :
    Counts env maxMemBytes s k h := by
  have hcounted := hs.counted h (List.mem_of_getElem? hk)
  have htargets : h.call.targets = h.call.owners := if_neg howners
  have hneed : ∀ l : List GoString, l ≠ [] →
      max 1 (min writeQuorum l.length) = min writeQuorum l.length := by
    intro l hl
    have hpos := List.length_pos_iff.mpr hl
    have hquorum : writeQuorum = 2 := rfl
    omega
  refine ⟨howners, ⟨hcounted.nodup_remotes, fun r hr => ?_⟩, fun hown => ?_, ?_, ?_, fun hok => ?_⟩
  · have hmem : r.owner ∈ h.call.remotes.map Rpc.owner := List.mem_map.mpr ⟨r, hr, rfl⟩
    refine ⟨htargets ▸ hcounted.sound.targets _ (List.mem_append_right _ hmem), ?_⟩
    intro hself
    exact hcounted.remotes (hself ▸ hmem)
  · exact htargets ▸ (hcounted.own hown).2
  · exact hcounted.taken.trans hcounted.length_results
  · intro ok hreply evs
    obtain ⟨h', hk', hbecomes⟩ := becomes_run env maxMemBytes hk evs
    have hcounted' := (hs.run env maxMemBytes evs).counted h'
      (List.mem_of_getElem? hk')
    have hreply' : h'.reply = some ok :=
      (hbecomes.replied (by rw [hreply]; exact Option.some_ne_none ok)).1.trans hreply
    refine ⟨h', hk', hreply', ?_⟩
    rw [hcounted'.reply_iff hreply', hcounted'.sound.need, hbecomes.owners, hneed _ howners]
  · obtain ⟨t, hcard, ht⟩ := hcounted.success hok
    rw [hneed _ howners] at hcard
    exact ⟨t, hcard, fun x hx => htargets ▸ ht x hx⟩

theorem Sound.ends (hs : s.Sound) (hk : s.handlers[k]? = some h) : Ends env maxMemBytes s k h where
  loop := loop_ends hk
  results := by
    intro hup hrest hall
    refine returns hk hup hrest ?_
    have hsub : h.call.remotes.map Rpc.owner ⊆ h.results.map Prod.fst := by
      intro x hx
      obtain ⟨r, hr, rfl⟩ := List.mem_map.mp hx
      exact hall r hr
    have hnodup := (hs.counted h (List.mem_of_getElem? hk)).nodup_remotes
    simpa using (hnodup.subperm hsub).length_le

/-- **How a write fans out.** Along every run, with whatever owners its
ring gives it and whoever it holds alive, however its own tree fares and
in whatever order the results come, a client's write ends and counts
right; a write that was forwarded is handled at its target, is sent on
nowhere, and no call touches a node other than its own. -/
theorem write_fanOut (env : Env) (maxMemBytes : ℤ)
    (config : AList fun _ : GoString => List GoString) (evs : List FanOut.Event) (k : ℕ)
    (h : Handler) (hk : (after env maxMemBytes config evs).handlers[k]? = some h) :
    (isReplica h.md = false → Counts env maxMemBytes (after env maxMemBytes config evs) k h) ∧
      Ends env maxMemBytes (after env maxMemBytes config evs) k h ∧
      (∀ j owner, h.origin = some (j, owner) →
        (after env maxMemBytes config evs).Forwarded h j owner ∧ h.call.remotes = []) ∧
      ∀ ev : FanOut.Event, ev.call? = some k → ∀ n, n ≠ h.call.self →
        ((after env maxMemBytes config evs).step env maxMemBytes ev).nodes n
          = (after env maxMemBytes config evs).nodes n := by
  have hs := sound_after env maxMemBytes config evs
  have hh := List.mem_of_getElem? hk
  refine ⟨fun hmd => hs.counts hk (owners_ne_nil_after config evs hh hmd), hs.ends hk,
    fun j owner horigin => ?_, fun ev hev n hne => nodes_step_of_ne hk hev hne⟩
  have hforwarded := hs.forwarded h hh j owner horigin
  exact ⟨hforwarded, (hs.counted h hh).remotes_eq_nil (hs.replica h hh hforwarded.replica)⟩

/-! ## Three nodes -/

/-- A client's write at the first of the three, behind its start: the second
fails, and the answer of the third comes late. -/
def lateWrite : List FanOut.Event :=
  [.look 0 (.done .ok), .look 0 (.done .ok), .look 0 (.done .ok), .send 0 [98] false, .take 0,
    .deliver 0 [99], .look 1 (.done .ok), .respond 1, .send 0 [99] true, .take 0]

/-- The three with the write started, its owners in the order `l`. -/
def trioStarted (l : List GoString) : FanOut where
  nodes := (Cluster.init sampleEnv 0 Gossip.trio).nodes
  handlers := [⟨∅, none, .start [97] 0 (sampleEntry 97 1) l, false, [], 0⟩]

/-- The write starts, whatever the order in which the ring lists the
owners. -/
theorem after_trio (evs : List FanOut.Event) : ∃ l ∈ Gossip.trio.keys.permutations',
    after sampleEnv 0 Gossip.trio (.write [97] ∅ (some (sampleEntry 97 1)) :: evs)
      = (trioStarted l).run sampleEnv 0 evs := by
  obtain ⟨nd, hnd, hboots⟩ : ∃ nd, nd ∈ (Cluster.after sampleEnv 0 Gossip.trio []).running [97] ∧
      nd.boots = 0 := ⟨_, rfl, rfl⟩
  refine ⟨nd.owners [97], trio_owners (by simp) hnd [97], ?_⟩
  have hstart : Handler.start [97] nd ∅ none (sampleEntry 97 1)
      = ⟨∅, none, .start [97] 0 (sampleEntry 97 1) (nd.owners [97]), false, [], 0⟩ := by
    have hmd : isReplica ∅ = false := rfl
    have hid : (sampleEntry 97 1).entityId = [97] := rfl
    simp only [Handler.start, hmd, Bool.false_eq_true, if_false, hid, hboots]
  have hrunning : (FanOut.cluster ⟨(Cluster.init sampleEnv 0 Gossip.trio).nodes, []⟩).running [97]
      = some nd := hnd
  have hfirst : step sampleEnv 0 ⟨(Cluster.init sampleEnv 0 Gossip.trio).nodes, []⟩
      (.write [97] ∅ (some (sampleEntry 97 1))) = trioStarted (nd.owners [97]) := by
    unfold step stepHandlers
    simp only [hrunning, Option.bind_some, Option.map_some, Option.toList_some, List.nil_append,
      hstart]
    rfl
  exact congrArg (fun s => run sampleEnv 0 s evs) hfirst

/-- It fails to reach the second, and succeeds with the third. -/
theorem write_fanOut_late :
    ∃ h, (after sampleEnv 0 Gossip.trio
        (.write [97] ∅ (some (sampleEntry 97 1)) :: lateWrite)).handlers[0]? = some h ∧
      h.results = [([98], false), ([99], true)] ∧ h.reply = some true ∧
      Counts sampleEnv 0 (after sampleEnv 0 Gossip.trio
        (.write [97] ∅ (some (sampleEntry 97 1)) :: lateWrite)) 0 h := by
  obtain ⟨l, hl, hafter⟩ := after_trio lateWrite
  have hrun : ∀ l ∈ Gossip.trio.keys.permutations',
      ((trioStarted l).run sampleEnv 0 lateWrite).handlers[0]?.map
          (fun h => (isReplica h.md, h.results, h.reply))
        = some (false, [([98], false), ([99], true)], some true) := by decide
  obtain ⟨h, hk, hfacts⟩ := Option.map_eq_some_iff.mp (hrun l hl)
  simp only [Prod.mk.injEq] at hfacts
  obtain ⟨hmd, hresults, hreply⟩ := hfacts
  rw [← hafter] at hk
  exact ⟨h, hk, hresults, hreply, (write_fanOut sampleEnv 0 Gossip.trio _ 0 h hk).1 hmd⟩

end FanOut

end Metastore

end TftAnalytics

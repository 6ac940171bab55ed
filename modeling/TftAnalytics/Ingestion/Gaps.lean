import TftAnalytics.Ingestion.Numbering
import TftAnalytics.Processor.Helpers.Gap
/-!
# Ingestion — numbers without an event

A number is drawn before it is known that the match has an event and that
the broker gets it. Where there is none, the reorder buffers of the
processors wait for the number: what the node sends after it is held for
the timeout.
-/

namespace TftAnalytics

namespace Ingestion

open Metastore (counter)
open Processor (Call HasClock ReorderBuffer Usage Waited below_run pushes seqOf)

/-- An element of a list is the only one with its image, if the images
differ. -/
theorem eq_of_nodup_filterMap {α β : Type} {f : α → Option β} {l : List α}
    (h : (l.filterMap f).Nodup) {a b : α} (ha : a ∈ l) (hb : b ∈ l) {x : β} (hax : f a = some x)
    (hbx : f b = some x) : a = b := by
  have hpair := List.pairwise_filterMap.mp h
  have : Std.Symm fun a b : α => ∀ x, f a = some x → ∀ y, f b = some y → x ≠ y :=
    ⟨fun _ _ hab y hy x hx heq => hab x hx y hy heq.symm⟩
  by_contra hne
  exact hpair.forall ha hb hne x hax x hbx rfl

variable {ι : Type} {g : Ingestor} {log : List (TaskEntry ι)} {s : Scheduler ι}

theorem seqOf_received (e : PbMatchEvent) (node : GoString) :
    seqOf e.received node = e.number node := rfl

/-- **An event with a number is the one that it was drawn for.** -/
theorem Numbered.eq_of_number (h : Numbered g log s) {i : ι} {task : Task} {seq : ℕ}
    {drawn : Option PbMatchEvent} (hdrawn : .drawn i task seq drawn ∈ log) {e : PbMatchEvent}
    (he : e ∈ atBroker log) (hseq : e.number g.nodeId = seq) : drawn = some e := by
  have hmade : e ∈ made log := h.sent.mem_iff.mpr (List.mem_append_left _ he)
  obtain ⟨j, task', seq', hmem⟩ := mem_made.mp hmade
  have hnumber := (h.drawn j task' seq' e hmem).number
  obtain rfl : seq' = seq := by omega
  have hnodup : (numbers log).Nodup := h.seq ▸ List.nodup_range'
  have heq := eq_of_nodup_filterMap hnodup hdrawn hmem rfl rfl
  injection heq

/-- An event of another node has no number here. -/
theorem Made.number_of_ne {task : Task} {seq : ℕ} {e : PbMatchEvent} (h : Made g task seq e)
    {node : GoString} (hnode : node ≠ g.nodeId) : e.number node = 0 := by
  rw [PbMatchEvent.number, h.clock]
  show (counter (AList.singleton g.nodeId _) node).toInt = 0
  rw [counter, ← AList.insert_empty, AList.lookup_insert_ne hnode, AList.lookup_empty]
  rfl

section

variable [DecidableEq ι]

theorem numbered_run (g : Ingestor) (evs : List (TaskEvent ι)) :
    Numbered g (Scheduler.trace g evs) (Scheduler.run g evs) := by
  have hrun : Numbered g ([] ++ Scheduler.trace g evs) (Scheduler.run g evs) :=
    Machine.invariant_run (M := Scheduler.machine g) (P := Numbered g)
      (fun ev _ log s h => h.move (Scheduler.moves_step g s ev)) (numbered_init g)
  rwa [List.nil_append] at hrun

/-- **A gap stalls its node.** Let ingestors with different ids run, and a
reorder buffer get some of their events from the broker, in any order and at
any times. Where one has drawn a number and the broker has no event for it,
an event of that node with a larger number comes out of the buffer only if a
`pop_ready` finds such an event that was pushed the timeout ago or before. -/
theorem gap_stalls {κ : Type} (fleet : κ → Ingestor) (evs : κ → List (TaskEvent ι))
    (hids : Function.Injective fun n => (fleet n).nodeId)
    {n : κ} {i : ι} {task : Task} {seq : ℕ} {event : Option PbMatchEvent}
    (hdrawn : .drawn i task seq event ∈ Scheduler.trace (fleet n) (evs n))
    (hlost : ∀ e ∈ event, e ∉ atBroker (Scheduler.trace (fleet n) (evs n)))
    (timeout : ℚ) (calls : List (Call Processor.MatchEvent))
    (hpushed : ∀ e ∈ pushes calls, ∃ m, ∃ e' ∈ atBroker (Scheduler.trace (fleet m) (evs m)),
      e = e'.received)
    {x : Processor.Numbered Processor.MatchEvent} (hx : x ∈ (Usage.run timeout calls).delivered)
    (hlate : (seq : ℤ) < seqOf x (fleet n).nodeId) :
    ∃ before e t mid now rest, calls = before ++ .push e t :: (mid ++ .popReady now :: rest) ∧
      (seq : ℤ) < seqOf e (fleet n).nodeId ∧ timeout ≤ now - t := by
  have hrun := fun m => numbered_run (fleet m) (evs m)
  have hpos : (0 : ℤ) < seq := by
    have hmem : seq ∈ numbers (Scheduler.trace (fleet n) (evs n)) :=
      List.mem_filterMap.mpr ⟨_, hdrawn, rfl⟩
    rw [(hrun n).seq, List.mem_range'_1] at hmem
    omega
  have hgap : ∀ e ∈ pushes calls, seqOf e (fleet n).nodeId ≠ seq := by
    intro e he hseq
    obtain ⟨m, e', he', rfl⟩ := hpushed e he
    rw [seqOf_received] at hseq
    by_cases hm : m = n
    · subst hm
      exact hlost e' ((hrun m).eq_of_number hdrawn he' hseq) he'
    · -- another node leaves this component at zero
      obtain ⟨j, task', seq', hmem⟩ := mem_made.mp
        ((hrun m).sent.mem_iff.mpr (List.mem_append_left _ he'))
      have hzero : e'.number (fleet n).nodeId = 0 :=
        ((hrun m).drawn j task' seq' e' hmem).number_of_ne fun heq => hm (hids heq.symm)
      omega
  rcases below_run hpos timeout calls hgap with hwaited | hbelow
  · exact hwaited
  · exact absurd (hbelow.delivered x hx) (not_lt.mpr hlate.le)

/-- An ingestor that asks Riot. -/
def asking : Ingestor := { oneMatch with synthetic := false }

/-- A match without `info`, and one with a player. -/
def replies : List RawMatch :=
  [⟨none, none⟩, ⟨none, some ⟨none, some [⟨none, none, none, none, none⟩], none⟩⟩]

/-- Two matches of a player are asked for, and the broker gets the second. -/
def secondOnly : List (TaskEvent ℕ) :=
  [.enqueue, .get 0, .puuids 0 (some [ascii "p"]), .matchIds 0 (some [ascii "m1", ascii "m2"]),
    .gotMatch 0 (some replies[0]?) 0, .gotMatch 0 (some replies[1]?) 0, .accept 0]

/-- What the broker gets. -/
def secondMatch : PbMatchEvent :=
  { matchId := [], region := ascii "NA", patch := defaultPatch, tier := ascii "IRON"
    players := [⟨[], 8, [], [], 0⟩], clock := nodeClock (ascii "ingest-1") 2, timestamp := 0 }

theorem gap_stalls_once : ∃ before e t mid now rest,
    [.push secondMatch.received 0, .popReady 30]
        = before ++ Call.push e t :: (mid ++ .popReady now :: rest) ∧
      (1 : ℤ) < seqOf e (ascii "ingest-1") ∧ (30 : ℚ) ≤ now - t :=
  gap_stalls (fun _ : Unit => asking) (fun _ => secondOnly) (fun _ _ _ => rfl)
    (n := ())
    (show .drawn 0 (8, ascii "NA", ascii "IRON") 1 none ∈ [TaskEntry.enqueued,
      .started 0 (8, ascii "NA", ascii "IRON"), .drawn 0 (8, ascii "NA", ascii "IRON") 1 none,
      .drawn 0 (8, ascii "NA", ascii "IRON") 2 (some secondMatch), .published secondMatch] by simp)
    (fun _ he => by cases he) 30 [.push secondMatch.received 0, .popReady 30]
    (fun e he => ⟨(), secondMatch, by
      show _ ∈ [secondMatch]
      simp, by simpa [pushes] using he⟩)
    (x := ⟨0, secondMatch.received⟩)
    (by decide +kernel) (by decide)

end

end Ingestion

end TftAnalytics

import TftAnalytics.Processor.Helpers.Processor
/-!
# Processor — a later flush against an earlier one

The clock of a flush is the merged clock of the events so far, with the
number of the flush under the processor's own name. Both only grow in the
life of a process, so the entries of a later flush win over those of an
earlier one, whatever the clocks of the events. Neither is kept over a
restart.
-/

namespace TftAnalytics

namespace Processor

open Metastore (VectorClock StatEntry clockMap counter vcDominates newerOf pickNewer entryKey)

/-! ## Counters -/

theorem counter_insert_self (dict : Counters) (node : GoString) (n : Int64) :
    counter (dict.insert node n) node = n := by
  unfold counter
  rw [AList.lookup_insert, Option.getD_some]

theorem counter_insert_of_ne (dict : Counters) {node node' : GoString} (h : node' ≠ node)
    (n : Int64) : counter (dict.insert node n) node' = counter dict node' := by
  unfold counter
  rw [AList.lookup_insert_ne h]

theorem counter_eq_of_lookup {dict : Counters} {node : GoString} {n : Int64}
    (h : dict.lookup node = some n) : counter dict node = n := by
  unfold counter
  rw [h, Option.getD_some]

theorem lookup_clockOfDict (dict : Counters) (node : GoString) :
    (clockOfDict dict).clocks.lookup node = dict.lookup node :=
  List.perm_dlookup node (clockOfDict dict).clocks.nodupKeys (List.perm_insertionSort _ _)

theorem counter_clockOfDict (dict : Counters) (node : GoString) :
    counter (clockOfDict dict).clocks node = counter dict node := by
  unfold counter
  rw [lookup_clockOfDict]

/-- **Merging moves no counter back.** -/
theorem counter_le_mergeClock (dict : Counters) (event : MatchEvent) (node : GoString) :
    counter dict node ≤ counter (mergeClock dict event) node := by
  unfold mergeClock
  induction (clockMap event.clock).entries generalizing dict with
  | nil => exact Int64.le_refl _
  | cons p entries ih =>
    rw [List.foldl_cons]
    refine Int64.le_trans ?_ (ih _)
    split_ifs with hlt
    · by_cases hnode : node = p.1
      · subst hnode
        rw [counter_insert_self]
        exact Int64.le_of_lt hlt
      · rw [counter_insert_of_ne dict hnode]
        exact Int64.le_refl _
    · exact Int64.le_refl _

/-- A clock that another is strictly above, at a node. -/
def Below (node : GoString) (c d : VectorClock) : Prop :=
  (∀ node', counter c.clocks node' ≤ counter d.clocks node') ∧
    ∃ n, d.clocks.lookup node = some n ∧ counter c.clocks node < n

/-- **Of two entries the one with the clock above wins**, in either
order. -/
theorem Below.pickNewer {node : GoString} {c d : VectorClock} (h : Below node c d)
    {e e' : StatEntry} (he : e.clock = some c) (he' : e'.clock = some d) :
    pickNewer (some e) (some e') = some e' ∧ pickNewer (some e') (some e) = some e' := by
  obtain ⟨hle, n, hn, hlt⟩ := h
  have hdom : vcDominates e'.clock e.clock = true := by
    rw [he, he']
    unfold vcDominates
    refine List.all_eq_true.mpr fun p hp => ?_
    have hp : counter c.clocks p.1 = p.2 := counter_eq_of_lookup (AList.mem_lookup_iff.mpr hp)
    have := hle p.1
    rw [hp] at this
    show (!decide (counter d.clocks p.1 < p.2)) = true
    simpa using this
  have hnot : vcDominates e.clock e'.clock = false := by
    rw [he, he']
    unfold vcDominates
    refine List.all_eq_false.mpr ⟨⟨node, n⟩, AList.mem_lookup_iff.mp hn, ?_⟩
    show ¬ (!decide (counter c.clocks node < n)) = true
    simpa using hlt
  unfold Metastore.pickNewer newerOf
  simp [hdom, hnot]

namespace Deployment

variable {cfg : Config} {feed : Feed} {σ σ' : Deployment}

/-- **What holds of the clocks of flushes.** -/
structure Ordered (cfg : Config) (σ : Deployment) : Prop where
  lives : ∀ f ∈ σ.flushes, f.life ≤ σ.life
  /-- The flushes of this life are below what the next will be. -/
  current : ∀ f ∈ σ.flushes, f.life = σ.life →
    (∀ node, node ≠ cfg.nodeId →
      counter f.clock.clocks node ≤ counter σ.memory.mergedClock node) ∧
      (counter f.clock.clocks cfg.nodeId).toInt ≤ σ.memory.flushSeq
  ordered : σ.flushes.Pairwise fun f g => f.life = g.life → Below cfg.nodeId f.clock g.clock

/-- **A flush** has a clock above those before it. -/
theorem Ordered.flush (h : σ.Ordered cfg) (hfits : σ.memory.flushSeq + 1 < 2 ^ 63) :
    (∀ f ∈ σ.flushes, f.life = σ.life → Below cfg.nodeId f.clock (σ.flushClock cfg)) ∧
      (∀ node, node ≠ cfg.nodeId →
        counter (σ.flushClock cfg).clocks node = counter σ.memory.mergedClock node) ∧
      (counter (σ.flushClock cfg).clocks cfg.nodeId).toInt = σ.memory.flushSeq + 1 := by
  unfold flushClock
  have hself : (counter (clockOfDict (σ.memory.mergedClock.insert cfg.nodeId
      (Int64.ofNat (σ.memory.flushSeq + 1)))).clocks cfg.nodeId).toInt
      = σ.memory.flushSeq + 1 := by
    rw [counter_clockOfDict, counter_insert_self, Int64.toInt_ofNat_of_lt hfits]
    omega
  have hothers : ∀ node, node ≠ cfg.nodeId →
      counter (clockOfDict (σ.memory.mergedClock.insert cfg.nodeId
        (Int64.ofNat (σ.memory.flushSeq + 1)))).clocks node
        = counter σ.memory.mergedClock node := by
    intro node hnode
    rw [counter_clockOfDict, counter_insert_of_ne _ hnode]
  -- ahead at the processor's own component, and at the others by the merge
  refine ⟨fun f hf hlife => ?_, hothers, hself⟩
  obtain ⟨hmerged, hseq⟩ := h.current f hf hlife
  have hlt : counter f.clock.clocks cfg.nodeId < Int64.ofNat (σ.memory.flushSeq + 1) := by
    rw [Int64.lt_iff_toInt_lt, Int64.toInt_ofNat_of_lt hfits]
    omega
  refine ⟨fun node => ?_, Int64.ofNat (σ.memory.flushSeq + 1), ?_, hlt⟩
  · by_cases hnode : node = cfg.nodeId
    · subst hnode
      rw [counter_clockOfDict, counter_insert_self]
      exact Int64.le_of_lt hlt
    · rw [hothers node hnode]
      exact hmerged node hnode
  · rw [lookup_clockOfDict, AList.lookup_insert]

theorem Ordered.moves (h : σ.Ordered cfg) (hmoves : Moves cfg feed σ σ') : σ'.Ordered cfg := by
  cases hmoves with
  | idle => exact h
  | load | receive | reconnect | put | save | goOn | popReady | proceed | write | finishFlush =>
    exact ⟨h.lives, h.current, h.ordered⟩
  | drain drained hmain m incoming hincoming now =>
    refine ⟨h.lives, fun f hf hlife => ?_, h.ordered⟩
    obtain ⟨hmerged, hseq⟩ := h.current f hf hlife
    exact ⟨fun node hnode => Int64.le_trans (hmerged node hnode)
      (counter_le_mergeClock σ.memory.mergedClock m.event node), hseq⟩
  | flush hmain hfits =>
    obtain ⟨hbelow, hothers, hself⟩ := h.flush hfits
    refine ⟨fun f hf => ?_, fun f hf hlife => ?_, ?_⟩
    · rcases List.mem_append.mp hf with hf | hf
      · exact h.lives f hf
      · obtain rfl := List.mem_singleton.mp hf
        exact le_rfl
    · rcases List.mem_append.mp hf with hf | hf
      · obtain ⟨hmerged, hseq⟩ := h.current f hf hlife
        refine ⟨hmerged, hseq.trans ?_⟩
        show (σ.memory.flushSeq : ℤ) ≤ ((σ.memory.flushSeq + 1 : ℕ) : ℤ)
        omega
      · obtain rfl := List.mem_singleton.mp hf
        refine ⟨fun node hnode => (hothers node hnode) ▸ Int64.le_refl _, ?_⟩
        show (counter (σ.flushClock cfg).clocks cfg.nodeId).toInt
          ≤ ((σ.memory.flushSeq + 1 : ℕ) : ℤ)
        omega
    · refine List.pairwise_append.mpr ⟨h.ordered, List.pairwise_singleton _ _, ?_⟩
      intro f hf g hg hlife
      obtain rfl := List.mem_singleton.mp hg
      exact hbelow f hf hlife
  | ended =>
    refine ⟨h.lives, fun f hf hlife => ?_, h.ordered⟩
    obtain ⟨hmerged, hseq⟩ := h.current f hf hlife
    refine ⟨hmerged, hseq.trans ?_⟩
    show (σ.memory.flushSeq : ℤ) ≤ ((σ.memory.flushSeq + 1 : ℕ) : ℤ)
    omega
  | restart now =>
    refine ⟨fun f hf => (h.lives f hf).trans (Nat.le_succ _), fun f hf hlife => ?_, h.ordered⟩
    -- no flush is of the new life yet
    have hle := h.lives f hf
    have hlife : f.life = σ.life + 1 := hlife
    omega

end Deployment

/-- **A later flush of one life supersedes an earlier one**, for every run,
whatever the clocks of the events: of an entry of each, `pickNewer` takes
the later one's, in either order. -/
theorem later_flush_supersedes (cfg : Config) (feed : Feed) (found : Offsets) (start : ℚ)
    (actions : List Action) (double : ℚ → UInt64) :
    (Deployment.run cfg feed found start actions).flushes.Pairwise fun f g => f.life = g.life →
      ∀ s ∈ f.stats, ∀ t ∈ g.stats,
        pickNewer (some (s.toEntry double f.clock)) (some (t.toEntry double g.clock))
          = some (t.toEntry double g.clock) ∧
        pickNewer (some (t.toEntry double g.clock)) (some (s.toEntry double f.clock))
          = some (t.toEntry double g.clock) := by
  have hordered : (Deployment.run cfg feed found start actions).Ordered cfg :=
    Deployment.run_induction
      ⟨(fun _ hf => by cases hf), (fun _ hf => by cases hf), List.Pairwise.nil⟩
      (fun _ _ h hmoves => h.moves hmoves) actions
  refine hordered.ordered.imp fun hbelow hlife s _ t _ => ?_
  exact (hbelow hlife).pickNewer rfl rfl

/-! ## Over a restart -/

/-- The sequence numbers that ingestion stamps on the matches of the feed,
each with one board. -/
def stampedFeed : Feed := fun _ offset =>
  some
    { region := ascii "NA"
      patch := []
      tier := ascii "GOLD"
      players := [⟨1, [], []⟩]
      clock := some ⟨⟨[⟨ascii "ingest-1", Int64.ofInt (offset + 1)⟩], by simp⟩, by
        simp [AList.keys]⟩ }

/-- One message goes through the processor, and a flush begins. -/
def countOne (offset : ℤ) (now : ℚ) : List Action :=
  [.receive 0 offset, .put 0, .save 0, .drain now, .stopDraining, .popReady now, .maybeFlush now]

/-- Two messages, each with a flush, then a restart, after which the first
is delivered and counted again. -/
def restartActions : List Action :=
  .load 0 :: countOne 0 60 ++ [.write .written, .finishFlush 60]
    ++ countOne 1 120 ++ [.write .written, .finishFlush 120]
    ++ .restart 130 :: .load 0 :: countOne 0 190

/-- **Over a restart an earlier flush may win.** -/
theorem not_superseded_after_restart : ¬ ∀ (cfg : Config) (feed : Feed) (found : Offsets)
    (start : ℚ) (actions : List Action) (double : ℚ → UInt64),
    (Deployment.run cfg feed found start actions).flushes.Pairwise fun f g =>
      ∀ s ∈ f.stats, ∀ t ∈ g.stats,
        entryKey (s.toEntry double f.clock) = entryKey (t.toEntry double g.clock) →
          pickNewer (some (s.toEntry double f.clock)) (some (t.toEntry double g.clock))
            = some (t.toEntry double g.clock) ∧
          pickNewer (some (t.toEntry double g.clock)) (some (s.toEntry double f.clock))
            = some (t.toEntry double g.clock) := by
  intro h
  exact absurd (h oneConfig stampedFeed (fun _ => none) 0 restartActions fun _ => 0)
    (by decide +kernel)

end Processor

end TftAnalytics

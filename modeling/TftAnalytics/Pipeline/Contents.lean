import TftAnalytics.Pipeline.Helpers.Flushes
import TftAnalytics.Pipeline.Helpers.Goroutines
import TftAnalytics.Pipeline.Model.Pipeline
import TftAnalytics.Metastore.Concurrency
import TftAnalytics.Processor.Aggregation
/-!
# Pipeline — what readers of the store are shown

A read of the node a processor writes to returns, for its key, the
statistics of one flush: those of the messages that this flush counts, and
of no others. In one life of the processor it is no earlier flush than any
whose write was acknowledged before the read began.
-/

namespace TftAnalytics

namespace Pipeline

open Processor (Config Deployment Feed Flush Offsets Stat specification)
open Metastore (Beats Clocked clockSum Env Shared Stage StatEntry entryKey)

variable {env : Env} {maxMemBytes : ℤ} {cfg : Config} {feed : Feed} {double : ℚ → UInt64}
variable {found : Offsets} {start : ℚ} {p : System}

/-- The entry is one of these flushes'. -/
def Offered (double : ℚ → UInt64) (flushes : List Flush) (e : StatEntry) : Prop :=
  ∃ f ∈ flushes, ∃ s ∈ f.stats, e = s.toEntry double f.clock

/-- **The processor and the node are each in a run of their own**; what is
sent and what the node is asked to write are entries of flushes, and what
the processor holds for written has returned at the node. -/
structure Joined (env : Env) (maxMemBytes : ℤ) (cfg : Config) (feed : Feed) (double : ℚ → UInt64)
    (found : Offsets) (start : ℚ) (p : System) : Prop where
  processor : ∃ actions, p.processor = Deployment.run cfg feed found start actions
  sent : ∀ e ∈ p.network, Offered double p.processor.flushes e
  node : ∃ moves, p.node = Shared.run env maxMemBytes moves ∧
    ∀ move ∈ moves, ∀ e, move.2 = .write e → Offered double p.processor.flushes e
  acked : ∀ w ∈ p.processor.writes, w.2.2 = .written → w.2.1.toEntry double w.1 ∈ p.node.returned

/-- The entry on its way is one of the flush under way. -/
theorem Joined.offered (h : Joined env maxMemBytes cfg feed double found start p)
    {e : StatEntry} (he : p.offered double = some e) :
    Offered double p.processor.flushes e ∧ ∃ clock s entries,
      p.processor.memory.main = .writing clock (s :: entries) ∧ e = s.toEntry double clock := by
  obtain ⟨actions, hactions⟩ := h.processor
  unfold System.offered at he
  split at he
  · rename_i clock s entries hmain
    obtain rfl := Option.some.inj he
    refine ⟨?_, clock, s, entries, hmain, rfl⟩
    rw [hactions] at hmain ⊢
    obtain ⟨f, hf, hclock, hstats⟩ :=
      (Deployment.windowed_run cfg feed found start actions).offering _ _ hmain
    exact ⟨f, hf, s, hstats s List.mem_cons_self, by rw [hclock]⟩
  · cases he

/-- A step of the processor. -/
theorem Joined.process (h : Joined env maxMemBytes cfg feed double found start p)
    (a : Processor.Action)
    (hwrites : ∀ w ∈ (p.processor.step cfg feed a).writes, w.2.2 = .written →
      w ∈ p.processor.writes ∨ w.2.1.toEntry double w.1 ∈ p.node.returned) :
    Joined env maxMemBytes cfg feed double found start
      { p with processor := p.processor.step cfg feed a } := by
  obtain ⟨actions, hactions⟩ := h.processor
  obtain ⟨moves, hmoves, hoffered⟩ := h.node
  have hgrow : ∀ e, Offered double p.processor.flushes e →
      Offered double (p.processor.step cfg feed a).flushes e := by
    rintro e ⟨f, hf, hs⟩
    exact ⟨f, (Deployment.moves_step cfg feed p.processor a).flushes_subset hf, hs⟩
  refine ⟨⟨actions ++ [a], ?_⟩, fun e he => hgrow e (h.sent e he),
    ⟨moves, hmoves, fun move hmove e he => hgrow e (hoffered move hmove e he)⟩,
    fun w hw hok => ?_⟩
  · rw [Deployment.run, List.foldl_concat, hactions]
    rfl
  · rcases hwrites w hw hok with hw | hreturned
    · exact h.acked w hw hok
    · exact hreturned

/-- A move of the node. -/
theorem Joined.moves (h : Joined env maxMemBytes cfg feed double found start p)
    (move : ℕ × Metastore.Move)
    (hmove : ∀ e, move.2 = .write e → Offered double p.processor.flushes e) :
    Joined env maxMemBytes cfg feed double found start { p with node := p.node.step env move } := by
  obtain ⟨moves, hmoves, hoffered⟩ := h.node
  refine ⟨h.processor, h.sent, ⟨moves ++ [move], ?_, fun m hm e he => ?_⟩, fun w hw hok => ?_⟩
  · rw [Shared.run, List.foldl_concat, hmoves]
    rfl
  · rcases List.mem_append.mp hm with hm | hm
    · exact hoffered m hm e he
    · exact hmove e (List.mem_singleton.mp hm ▸ he)
  · exact Metastore.Shared.returned_subset env _ _ (h.acked w hw hok)

theorem Joined.send (h : Joined env maxMemBytes cfg feed double found start p) :
    Joined env maxMemBytes cfg feed double found start (p.step env cfg feed double .send) := by
  simp only [System.step]
  cases hoffer : p.offered double with
  | none => exact h
  | some e =>
    refine ⟨h.processor, fun e' he' => ?_, h.node, h.acked⟩
    rcases List.mem_cons.mp he' with rfl | he'
    · exact (h.offered hoffer).1
    · exact h.sent e' he'

theorem Joined.answer (h : Joined env maxMemBytes cfg feed double found start p)
    (outcome : Processor.WriteOutcome) :
    Joined env maxMemBytes cfg feed double found start
      (p.step env cfg feed double (.answer outcome)) := by
  simp only [System.step]
  cases hoffer : p.offered double with
  | none => exact h
  | some e =>
    simp only
    split_ifs with hanswer
    · obtain ⟨-, clock, s, entries, hmain, rfl⟩ := h.offered hoffer
      refine h.process (.write outcome) fun w hw hok => ?_
      rw [Deployment.writes_step_write cfg feed hmain] at hw
      rcases List.mem_append.mp hw with hw | hw
      · exact Or.inl hw
      · obtain rfl := List.mem_singleton.mp hw
        obtain rfl : outcome = .written := hok
        exact Or.inr (of_decide_eq_true hanswer)
    · exact h

theorem joined_run (env : Env) (maxMemBytes : ℤ) (cfg : Config) (feed : Feed)
    (double : ℚ → UInt64) (found : Offsets) (start : ℚ) (events : List Event) :
    Joined env maxMemBytes cfg feed double found start
      (System.run env maxMemBytes cfg feed double found start events) := by
  induction events using List.reverseRecOn with
  | nil => exact ⟨⟨[], rfl⟩, (fun e he => by cases he), ⟨[], rfl, by simp⟩, fun w hw => by cases hw⟩
  | append_singleton events ev ih =>
    rw [System.run, List.foldl_concat]
    have hprocess : ∀ a : Processor.Action, (∀ outcome, a ≠ .write outcome) →
        Joined env maxMemBytes cfg feed double found start
          { System.run env maxMemBytes cfg feed double found start events with
            processor := (System.run env maxMemBytes cfg feed double found start
              events).processor.step cfg feed a } := by
      intro a ha
      refine ih.process a fun w hw _ => Or.inl ?_
      rwa [Deployment.writes_step cfg feed _ ha] at hw
    cases ev with
    | process a =>
      cases a with
      | write outcome => exact ih
      | _ => exact hprocess _ fun _ h => by cases h
    | send => exact ih.send
    | deliver t e =>
      simp only [System.step]
      split_ifs with he
      · exact ih.moves (t, .write e) fun e' he' => Metastore.Move.write.inj he' ▸ ih.sent e he
      · exact ih
    | answer outcome => exact ih.answer outcome
    | flush t => exact ih.moves (t, .flush) fun _ h => by cases h
    | read t key => exact ih.moves (t, .read key) fun _ h => by cases h
    | advance t => exact ih.moves (t, .advance) fun _ h => by cases h

/-- **Where a read began**, and what had returned by then. -/
theorem read_began {events : List Event} {t : ℕ} {q : GoString × List StatEntry}
    (h : ((System.run env maxMemBytes cfg feed double found start events).node.calls t).bind
      Stage.asked = some q) :
    ∃ pre rest, events = pre ++ .read t q.1 :: rest ∧
      q.2 = (System.run env maxMemBytes cfg feed double found start pre).node.returned := by
  induction events using List.reverseRecOn with
  | nil => cases h
  | append_singleton events ev ih =>
    rw [System.run, List.foldl_concat] at h
    set p := events.foldl (System.step env cfg feed double)
      (System.init env maxMemBytes found start)
    have hbefore : (p.node.calls t).bind Stage.asked = some q →
        ∃ pre rest, events ++ [ev] = pre ++ .read t q.1 :: rest ∧
          q.2 = (System.run env maxMemBytes cfg feed double found start pre).node.returned := by
      intro h
      obtain ⟨pre, rest, rfl, hq⟩ := ih h
      exact ⟨pre, rest ++ [ev], by simp, hq⟩
    have hmove : ∀ move : ℕ × Metastore.Move,
        ((p.node.step env move).calls t).bind Stage.asked = some q →
        move ≠ (t, .read q.1) → (p.node.calls t).bind Stage.asked = some q := by
      intro move h hne
      rcases Shared.asked_step move t h with h | ⟨hmove, -⟩
      · exact h
      · exact absurd hmove hne
    cases ev with
    | process a =>
      refine hbefore ?_
      cases a <;> exact h
    | send =>
      refine hbefore ?_
      simp only [System.step] at h
      split at h <;> exact h
    | deliver t' e =>
      refine hbefore ?_
      simp only [System.step] at h
      split_ifs at h
      · exact hmove (t', .write e) h (by simp)
      · exact h
    | answer outcome =>
      refine hbefore ?_
      simp only [System.step] at h
      split at h
      · exact h
      · split_ifs at h <;> exact h
    | flush t' => exact hbefore (hmove (t', .flush) h (by simp))
    | advance t' => exact hbefore (hmove (t', .advance) h (by simp))
    | read t' key =>
      have hstep : ((p.node.step env (t', .read key)).calls t).bind Stage.asked = some q := h
      rcases Shared.asked_step (t', .read key) t hstep with h | ⟨hread, hq⟩
      · exact hbefore h
      · obtain ⟨rfl, hkey⟩ := Prod.mk.inj hread
        obtain rfl := Metastore.Move.read.inj hkey
        exact ⟨events, [], rfl, hq⟩

/-- A later flush of the same life beats an earlier one. -/
theorem beats_of_below {node : GoString} {c d : Metastore.VectorClock}
    (h : Processor.Below node c d) {e r : StatEntry} (hr : r.clock = some c)
    (he : e.clock = some d) : Beats e r := by
  obtain ⟨hre, her⟩ := h.pickNewer hr he
  refine ⟨Option.some.inj her, Option.some.inj hre, ?_⟩
  rintro rfl
  obtain ⟨-, n, hn, hlt⟩ := h
  obtain rfl : c = d := Option.some.inj (hr.symm.trans he)
  rw [Processor.counter_eq_of_lookup hn] at hlt
  exact absurd hlt Int64.lt_irrefl

/-- The entries of a flush have sound clocks, if its sum is an `int64`. -/
theorem clocked_toEntry {σ : Deployment} (h : σ.Counting) {f : Flush} (hf : f ∈ σ.flushes)
    (hsum : clockSum (some f.clock) < 2 ^ 63) (double : ℚ → UInt64) (s : Stat) :
    Clocked (s.toEntry double f.clock) := by
  refine ⟨fun e he => ?_, hsum⟩
  have hcounter : Metastore.counter f.clock.clocks e.1 = e.2 :=
    Processor.counter_eq_of_lookup (AList.mem_lookup_iff.mpr he)
  exact hcounter ▸ h.flushes f hf e.1

/-- The node is in good order, for what it is asked to write has sound
clocks. -/
theorem Joined.good (h : Joined env maxMemBytes cfg feed double found start p)
    (hsums : ∀ f ∈ p.processor.flushes, clockSum (some f.clock) < 2 ^ 63) : p.node.Good env := by
  obtain ⟨actions, hactions⟩ := h.processor
  obtain ⟨moves, hmoves, hoffered⟩ := h.node
  have hcounting := Deployment.counting_run cfg feed found start actions
  rw [← hactions] at hcounting
  rw [hmoves]
  refine Metastore.Shared.good_run env maxMemBytes moves fun move hmove e he => ?_
  obtain ⟨f, hf, s, hs, rfl⟩ := hoffered move hmove e he
  exact clocked_toEntry hcounting hf (hsums f hf) double s

/-- What the node stores are entries of flushes. -/
theorem Joined.stored (h : Joined env maxMemBytes cfg feed double found start p) :
    ∀ e ∈ p.node.stored, Offered double p.processor.flushes e := by
  obtain ⟨moves, hmoves, hoffered⟩ := h.node
  rw [hmoves]
  exact (Metastore.Shared.sourced_run env maxMemBytes moves hoffered).stored

/-- A flush has the stats of the messages that it counts. -/
theorem Joined.stats (h : Joined env maxMemBytes cfg feed double found start p) {f : Flush}
    (hf : f ∈ p.processor.flushes) :
    f.stats.Perm (specification cfg.championCost (f.messages.map (·.event))) := by
  obtain ⟨actions, hactions⟩ := h.processor
  rw [hactions] at hf
  rw [(Deployment.windowed_run cfg feed found start actions).counts f hf]
  exact Processor.aggregated_perm _ _

/-- The entries of a later flush of the same life beat those of an earlier
one. -/
theorem Joined.beats (h : Joined env maxMemBytes cfg feed double found start p) {i j : ℕ}
    {f g : Flush} (hi : p.processor.flushes[i]? = some f) (hj : p.processor.flushes[j]? = some g)
    (hlife : g.life = f.life) (hlt : i < j) (s s' : Stat) :
    Beats (s'.toEntry double g.clock) (s.toEntry double f.clock) := by
  obtain ⟨actions, hactions⟩ := h.processor
  have hordered := (Deployment.ordered_run cfg feed found start actions).ordered
  rw [← hactions] at hordered
  obtain ⟨hil, hif⟩ := List.getElem?_eq_some_iff.mp hi
  obtain ⟨hjl, hjg⟩ := List.getElem?_eq_some_iff.mp hj
  have hbelow := List.pairwise_iff_getElem.mp hordered i j hil hjl hlt
  rw [hif, hjg] at hbelow
  exact beats_of_below (hbelow hlife.symm) rfl rfl

/-- **Readers are shown single flushes, and none that is out of date.** In
every run of a processor with stream errors, lost and late requests,
crashes and restarts, and of the node it writes to, a read that has its
result began at some moment. What it returns is an entry of its key of one
flush, whose stats are those of the messages that this flush counts, and of
that life of the processor no later flush had its write of the key
acknowledged before the read began. If any write of the key had been, the
read returns one. -/
theorem reads_show_flushes (env : Env) (maxMemBytes : ℤ) (cfg : Config) (feed : Feed)
    (double : ℚ → UInt64) (found : Offsets) (start : ℚ) (events : List Event)
    (hsums : ∀ f ∈ (System.run env maxMemBytes cfg feed double found start
      events).processor.flushes, clockSum (some f.clock) < 2 ^ 63)
    {t : ℕ} {key : GoString} {before : List StatEntry} {result : Option StatEntry}
    (hfound : (System.run env maxMemBytes cfg feed double found start events).node.calls t
      = some (.found key before result)) :
    ∃ pre rest, events = pre ++ .read t key :: rest ∧
      let flushes :=
        (System.run env maxMemBytes cfg feed double found start events).processor.flushes
      let writes := (System.run env maxMemBytes cfg feed double found start pre).processor.writes
      (∀ r, result = some r → entryKey r = key ∧ ∃ (i : ℕ) (f : Flush), flushes[i]? = some f ∧
        f.stats.Perm (specification cfg.championCost (f.messages.map (·.event))) ∧
        (∃ s ∈ f.stats, r = s.toEntry double f.clock) ∧
        ∀ (j : ℕ) (g : Flush) (s : Stat), flushes[j]? = some g → g.life = f.life →
          (g.clock, s, .written) ∈ writes → entryKey (s.toEntry double g.clock) = key → j ≤ i) ∧
      ((∃ clock s, (clock, s, .written) ∈ writes ∧ entryKey (s.toEntry double clock) = key) →
        ∃ r, result = some r) := by
  have hasked : ((System.run env maxMemBytes cfg feed double found start events).node.calls
      t).bind Stage.asked = some (key, before) := by
    rw [hfound]
    rfl
  obtain ⟨pre, rest, hevents, hbegan⟩ := read_began hasked
  have hacked := (joined_run env maxMemBytes cfg feed double found start pre).acked
  have hjoined := joined_run env maxMemBytes cfg feed double found start events
  rw [← hbegan] at hacked
  obtain ⟨hresult, hbefore⟩ := (hjoined.good hsums).calls t _ hfound
  refine ⟨pre, rest, hevents, ?_, fun ⟨clock, s, hw, hkey⟩ => ?_⟩
  · rintro r rfl
    obtain ⟨hstored, hkey⟩ := hresult r rfl
    obtain ⟨f, hf, s, hs, rfl⟩ := hjoined.stored r hstored
    obtain ⟨i, hi⟩ := List.mem_iff_getElem?.mp hf
    refine ⟨hkey, i, f, hi, hjoined.stats hf, ⟨s, hs, rfl⟩, fun j g s' hj hlife hw hkey' => ?_⟩
    obtain ⟨r, hr, hnot⟩ := hbefore _ (hacked _ hw rfl) hkey'
    obtain rfl := Option.some.inj hr
    -- a later flush would beat what was read
    by_contra hlt
    exact hnot (hjoined.beats hi hj hlife (Nat.lt_of_not_le hlt) s s')
  · obtain ⟨r, hr, -⟩ := hbefore _ (hacked _ hw rfl) hkey
    exact ⟨r, hr⟩

/-- The bits of `1.0`, which all rates of a lone winner are. -/
def doubleOne (q : ℚ) : UInt64 := if q = 1 then 0x3FF0000000000000 else 0

/-- The sequence numbers of the match and of the flush. -/
def loneClock : Metastore.VectorClock :=
  Processor.clockOfDict
    (AList.insert (ascii "processor-1") 1 (AList.insert (ascii "ingest-1") 1 ∅))

/-- The entry of one match with one board. -/
def loneEntry : StatEntry :=
  { entityId := ascii "comp:Unknown"
    entityType := ascii "composition"
    patch := []
    region := ascii "NA"
    tier := ascii "GOLD"
    winRate := doubleOne 1
    avgPlacement := doubleOne 1
    playRate := doubleOne 1
    sampleSize := 1
    clock := some loneClock }

/-- Its encoding. -/
def loneCodec : Metastore.Codec :=
  .ofTable [(loneEntry,
      [10, 12, 99, 111, 109, 112, 58, 85, 110, 107, 110, 111, 119, 110, 18, 11, 99, 111, 109,
      112, 111, 115, 105, 116, 105, 111, 110, 34, 2, 78, 65, 42, 4, 71, 79, 76, 68, 49, 0, 0, 0,
      0, 0, 0, 240, 63, 57, 0, 0, 0, 0, 0, 0, 240, 63, 65, 0, 0, 0, 0, 0, 0, 240, 63, 72, 1, 82,
      31, 10, 12, 10, 8, 105, 110, 103, 101, 115, 116, 45, 49, 16, 1, 10, 15, 10, 11, 112, 114,
      111, 99, 101, 115, 115, 111, 114, 45, 49, 16, 1])] (by decide)

/-- A match is counted and flushed, the write of its entry is acknowledged,
and another goroutine reads the entry. -/
def loneEvents : List Event :=
  (.process (.load 0) :: (Processor.countOne 0 60).map .process)
    ++ [.send, .deliver 0 loneEntry, .advance 0, .advance 0, .answer .written,
      .read 1 (entryKey loneEntry), .advance 1, .advance 1]

/-- What a goroutine has found. -/
def found? : Option Metastore.Stage → Option (GoString × List StatEntry × Option StatEntry)
  | some (.found key before result) => some (key, before, result)
  | _ => none

theorem eq_found {stage : Option Metastore.Stage} {key : GoString} {before : List StatEntry}
    {result : Option StatEntry} (h : found? stage = some (key, before, result)) :
    stage = some (.found key before result) := by
  unfold found? at h
  split at h
  · cases h
    rfl
  · cases h

theorem reads_show_flushes_lone :
    let p := System.run ⟨loneCodec, fun n => n, strictMono_id⟩ 0 Processor.oneConfig
      Processor.stampedFeed doubleOne (fun _ => none) 0 loneEvents
    ∃ (i : ℕ) (f : Flush), p.processor.flushes[i]? = some f ∧
      ∃ s ∈ f.stats, loneEntry = s.toEntry doubleOne f.clock := by
  obtain ⟨_, _, _, hshown, _⟩ := reads_show_flushes ⟨loneCodec, fun n => n, strictMono_id⟩ 0
    Processor.oneConfig Processor.stampedFeed doubleOne (fun _ => none) 0 loneEvents
    (by decide +kernel) (t := 1)
    (eq_found (by decide +kernel : found? _ = some (entryKey loneEntry, [loneEntry],
      some loneEntry)))
  obtain ⟨-, i, f, hi, -, hs, -⟩ := hshown loneEntry rfl
  exact ⟨i, f, hi, hs⟩

end Pipeline

end TftAnalytics

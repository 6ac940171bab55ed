import TftAnalytics.Processor.Helpers.Processor
/-!
# Processor — where every message is

A message that a thread has received is in one of four buffers of the
process, in a flush, or was in a buffer when the process crashed. The
offset files do not wait for the flush: what they say is that a message
has been put on the queue.
-/

namespace TftAnalytics

namespace Processor

namespace Deployment

variable {cfg : Config} {feed : Feed} {found : Offsets} {σ σ' : Deployment}

/-! ## Counting the messages in memory -/

/-- How often a message is in the hands of the threads. -/
def handCount (cfg : Config) (σ : Deployment) (m : Message) : ℕ :=
  ((List.range cfg.partitions.length).map fun i => (σ.memory.threads i).held.count m).sum

theorem count_inMemory (cfg : Config) (σ : Deployment) (m : Message) :
    (σ.inMemory cfg).count m = σ.handCount cfg m + σ.memory.incoming.count m
      + σ.memory.reorder.events.count m + σ.aggregated.count m
      + σ.underway.count m := by
  unfold inMemory handCount
  simp only [List.count_append, List.count_flatMap]
  rfl

/-- A thread moves: what is in hands changes by what it held and holds. -/
theorem handCount_goto (σ : Deployment) {i : ℕ} {partition : GoString}
    (hi : cfg.partitions[i]? = some partition)
    (stage : Stage) (m : Message) :
    (σ.goto i stage).handCount cfg m + (σ.memory.threads i).held.count m
      = σ.handCount cfg m + stage.held.count m := by
  obtain ⟨hlt, -⟩ := List.getElem?_eq_some_iff.mp hi
  exact sum_update (fun _ s => s.held.count m) σ.memory.threads stage hlt

theorem underway_eq_nil (h : ∀ clock entries, σ.memory.main ≠ .writing clock entries) :
    σ.underway = [] := by
  unfold underway
  split
  · rename_i hmain
    exact absurd hmain (h _ _)
  · rfl

theorem underway_of_writing {clock : Metastore.VectorClock} {entries : List Stat}
    (h : σ.memory.main = .writing clock entries) :
    σ.underway = (σ.flushes.getLast?.map (·.messages)).getD [] := by
  unfold underway
  rw [h]

/-- How often a message is past the threads: on the queue, in a buffer of
the main thread, or in a flush that has ended. -/
def mainCount (σ : Deployment) (m : Message) : ℕ :=
  σ.memory.incoming.count m + σ.memory.reorder.events.count m + σ.aggregated.count m
    + σ.underway.count m + (messagesOf σ.sent).count m

theorem mainCount_of_idle (h : ∀ clock entries, σ.memory.main ≠ .writing clock entries)
    (m : Message) :
    σ.mainCount m = σ.memory.incoming.count m + σ.memory.reorder.events.count m
      + σ.aggregated.count m + (messagesOf σ.sent).count m := by
  unfold mainCount
  rw [underway_eq_nil h, List.count_nil, Nat.add_zero]

theorem mainCount_of_writing {clock : Metastore.VectorClock} {entries : List Stat}
    (h : σ.memory.main = .writing clock entries) (m : Message) :
    σ.mainCount m = σ.memory.incoming.count m + σ.memory.reorder.events.count m
      + σ.aggregated.count m + ((σ.flushes.getLast?.map Flush.messages).getD []).count m
      + (messagesOf σ.sent).count m := by
  unfold mainCount
  rw [underway_of_writing h]

/-- **Every message is somewhere**, as often as it was delivered. -/
def Conserved (cfg : Config) (σ : Deployment) : Prop :=
  ∀ m, σ.delivered.count m = (σ.inMemory cfg).count m
    + (messagesOf σ.sent).count m + σ.lost.count m

theorem conserved_iff : σ.Conserved cfg ↔
    ∀ m, σ.delivered.count m = σ.handCount cfg m + σ.mainCount m + σ.lost.count m := by
  unfold Conserved
  refine forall_congr' fun m => ?_
  rw [count_inMemory]
  unfold mainCount
  omega

theorem conserved_init (cfg : Config) (found : Offsets) (start : ℚ) :
    (init found start).Conserved cfg := by
  intro m
  have hhands : (init found start).handCount cfg m = 0 := by
    unfold handCount
    simp [init, Memory.new, Stage.held]
  rw [count_inMemory, hhands]
  rfl

/-- **A thread moves**: what it gains in hand has just been delivered, and
what it loses is on the queue. -/
theorem Conserved.thread (h : σ.Conserved cfg) {i : ℕ} {partition : GoString}
    (hi : cfg.partitions[i]? = some partition) (stage : Stage)
    (hthreads : σ'.memory.threads = (σ.goto i stage).memory.threads) (hlost : σ'.lost = σ.lost)
    (hheld : ∀ m, σ'.delivered.count m + (σ.memory.threads i).held.count m + σ.mainCount m
      = σ.delivered.count m + stage.held.count m + σ'.mainCount m) : σ'.Conserved cfg := by
  rw [conserved_iff] at h ⊢
  intro m
  have hm := h m
  have hhands := handCount_goto σ hi stage m
  have hsame : σ'.handCount cfg m = (σ.goto i stage).handCount cfg m := by
    unfold handCount
    rw [hthreads]
  have hheld := hheld m
  rw [hsame, hlost]
  omega

/-- **The main thread moves** messages between its buffers only. -/
theorem Conserved.main (h : σ.Conserved cfg) (hthreads : σ'.memory.threads = σ.memory.threads)
    (hdelivered : σ'.delivered = σ.delivered) (hlost : σ'.lost = σ.lost)
    (hmain : ∀ m, σ'.mainCount m = σ.mainCount m) : σ'.Conserved cfg := by
  rw [conserved_iff] at h ⊢
  intro m
  have hsame : σ'.handCount cfg m = σ.handCount cfg m := by
    unfold handCount
    rw [hthreads]
  rw [hdelivered, hlost, hsame, hmain m]
  exact h m

/-- **The process restarts**: what was in memory is lost. -/
theorem Conserved.restart (h : σ.Conserved cfg) (now : ℚ) : (σ.restart cfg now).Conserved cfg := by
  intro m
  have hm := h m
  have hempty : ((σ.restart cfg now).inMemory cfg).count m = 0 := by
    have hhands : (σ.restart cfg now).handCount cfg m = 0 := by
      unfold handCount
      simp [Deployment.restart, Memory.new, Stage.held]
    rw [count_inMemory, hhands, underway_eq_nil (by simp [Deployment.restart, Memory.new])]
    rfl
  rw [hempty]
  show σ.delivered.count m = 0 + (messagesOf σ.sent).count m
    + (σ.lost ++ σ.inMemory cfg).count m
  rw [List.count_append]
  omega

theorem Conserved.moves (h : σ.Conserved cfg) (hmoves : Moves cfg feed σ σ') :
    σ'.Conserved cfg := by
  cases hmoves with
  | idle => exact h
  | load i partition hi hstage =>
    refine h.thread hi _ rfl rfl fun m => ?_
    rw [hstage]
    rfl
  | receive i partition hi lastSaved next offset hstage hnext event hevent =>
    refine h.thread hi _ rfl rfl fun m => ?_
    rw [hstage]
    show (σ.delivered ++ [_]).count m + [].count m + σ.mainCount m
      = σ.delivered.count m + [_].count m + σ.mainCount m
    rw [List.count_append, List.count_nil, Nat.add_zero]
  | reconnect i partition hi hheld =>
    refine h.thread hi _ rfl rfl fun m => ?_
    rw [hheld]
    rfl
  | put i partition hi lastSaved m' hstage hroom =>
    refine h.thread hi _ rfl rfl fun m => ?_
    rw [hstage]
    unfold mainCount
    show σ.delivered.count m + [m'].count m + _
      = σ.delivered.count m + [].count m + ((σ.memory.incoming ++ [m']).count m
        + σ.memory.reorder.events.count m + σ.aggregated.count m + σ.underway.count m
        + (messagesOf σ.sent).count m)
    rw [List.count_append, List.count_nil]
    omega
  | save i partition hi lastSaved offset hstage =>
    refine h.thread hi _ rfl rfl fun m => ?_
    rw [hstage]
    rfl
  | goOn i partition hi lastSaved offset hstage =>
    refine h.thread hi _ rfl rfl fun m => ?_
    rw [hstage]
    rfl
  | drain drained hmain m' incoming hincoming now =>
    refine h.main rfl rfl rfl fun m => ?_
    -- from the queue into the reorder buffer
    have hpush := (events_push σ.memory.reorder m' now).count_eq m
    rw [mainCount_of_idle (by simp), mainCount_of_idle (σ := σ) (by simp [hmain]), hincoming]
    show incoming.count m + (σ.memory.reorder.push m' now).events.count m + σ.aggregated.count m
      + (messagesOf σ.sent).count m = _
    rw [List.count_cons] at hpush ⊢
    omega
  | popReady hmain now =>
    refine h.main rfl rfl rfl fun m => ?_
    -- from the reorder buffer into the aggregate
    obtain ⟨-, -, hperm, -⟩ := popReady_spec σ.memory.reorder now
    have hpop := hperm.count_eq m
    rw [mainCount_of_idle (by simp), mainCount_of_idle (σ := σ) (by simp [hmain])]
    show σ.memory.incoming.count m + (σ.memory.reorder.popReady now).1.events.count m
      + (σ.aggregated ++ (σ.memory.reorder.popReady now).2).count m
      + (messagesOf σ.sent).count m = _
    rw [List.count_append] at hpop ⊢
    omega
  | proceed main lastFlush hmain hmain' =>
    refine h.main rfl rfl rfl fun m => ?_
    rw [mainCount_of_idle hmain', mainCount_of_idle hmain]
  | flush hmain hfits =>
    refine h.main rfl rfl rfl fun m => ?_
    rw [mainCount_of_writing rfl, mainCount_of_idle (σ := σ) (by simp [hmain])]
    -- what was in the aggregate is what the new flush has counted
    show σ.memory.incoming.count m + σ.memory.reorder.events.count m + [].count m
      + (((σ.flushes ++ [_]).getLast?.map Flush.messages).getD []).count m
      + (messagesOf σ.sent).count m = _
    rw [List.getLast?_concat, Option.map_some, Option.getD_some, List.count_nil, Nat.add_zero]
  | ended hmain =>
    refine h.main rfl rfl rfl fun m => ?_
    rw [mainCount_of_idle (by simp), mainCount_of_idle (σ := σ) (by simp [hmain])]
  | write clock entry entries hmain outcome =>
    refine h.main rfl rfl rfl fun m => ?_
    rw [mainCount_of_writing rfl, mainCount_of_writing hmain]
    rfl
  | finishFlush clock hmain now =>
    refine h.main rfl rfl rfl fun m => ?_
    rw [mainCount_of_idle (by simp), mainCount_of_writing hmain]
    -- the flush under way is now one that has ended
    show σ.memory.incoming.count m + σ.memory.reorder.events.count m + σ.aggregated.count m
      + (messagesOf (σ.sent ++ σ.flushes.getLast?.toList)).count m = _
    unfold messagesOf
    rw [List.flatMap_append, List.count_append]
    cases hlast : σ.flushes.getLast? with
    | none => simp
    | some f =>
      simp only [Option.map_some, Option.getD_some, Option.toList_some, List.flatMap_cons,
        List.flatMap_nil, List.append_nil]
      omega
  | restart now => exact h.restart now

/-! ## What a flush counts -/

/-- The stats of a flush are those of its messages. -/
def Counts (cfg : Config) (f : Flush) : Prop :=
  f.stats
    = (StatAggregator.new.processBatch cfg.championCost (f.messages.map (·.event))).flush.2

/-- **What holds of the aggregate and the flushes.** -/
structure Flushed (cfg : Config) (σ : Deployment) : Prop where
  aggregator : σ.memory.aggregator
    = StatAggregator.new.processBatch cfg.championCost (σ.aggregated.map (·.event))
  writing : ∀ clock entries, σ.memory.main = .writing clock entries →
    ∃ f, σ.flushes.getLast? = some f ∧ f.clock = clock ∧ Counts cfg f ∧
      ∀ s ∈ f.stats, s ∈ entries ∨ ∃ outcome, (clock, s, outcome) ∈ σ.writes
  sent : ∀ f ∈ σ.sent, Counts cfg f ∧ ∀ s ∈ f.stats, ∃ outcome, (f.clock, s, outcome) ∈ σ.writes

theorem Flushed.moves (h : σ.Flushed cfg) (hmoves : Moves cfg feed σ σ') : σ'.Flushed cfg := by
  cases hmoves with
  | idle => exact h
  | load | receive | reconnect | put | save | goOn => exact ⟨h.aggregator, h.writing, h.sent⟩
  | drain => exact ⟨h.aggregator, (fun _ _ hw => by cases hw), h.sent⟩
  | popReady hmain now =>
    refine ⟨?_, (fun _ _ hw => by cases hw), h.sent⟩
    show σ.memory.aggregator.processBatch cfg.championCost _ = _
    rw [h.aggregator]
    unfold StatAggregator.processBatch
    rw [List.map_append, List.foldl_append]
  | proceed main lastFlush hmain hmain' =>
    exact ⟨h.aggregator, fun clock entries hw => absurd hw (hmain' clock entries), h.sent⟩
  | flush hmain hfits =>
    refine ⟨rfl, fun clock entries hw => ?_, h.sent⟩
    obtain ⟨rfl, rfl⟩ := Main.writing.inj hw
    refine ⟨_, List.getLast?_concat .., rfl, ?_, fun s hs => Or.inl hs⟩
    show σ.memory.aggregator.flush.2 = _
    rw [h.aggregator]
  | ended => exact ⟨h.aggregator, (fun _ _ hw => by cases hw), h.sent⟩
  | write clock entry entries hmain outcome =>
    refine ⟨h.aggregator, fun clock' entries' hw => ?_, fun f hf => ?_⟩
    · obtain ⟨rfl, rfl⟩ := Main.writing.inj hw
      obtain ⟨f, hlast, hclock, hcounts, hstats⟩ := h.writing clock (entry :: entries) hmain
      refine ⟨f, hlast, hclock, hcounts, fun s hs => ?_⟩
      -- the entry just written moves from those left to those written
      rcases hstats s hs with hmem | ⟨o, ho⟩
      · rcases List.mem_cons.mp hmem with rfl | hmem
        · exact Or.inr ⟨outcome, List.mem_append_right _ (List.mem_singleton.mpr rfl)⟩
        · exact Or.inl hmem
      · exact Or.inr ⟨o, List.mem_append_left _ ho⟩
    · obtain ⟨hcounts, hstats⟩ := h.sent f hf
      refine ⟨hcounts, fun s hs => ?_⟩
      obtain ⟨o, ho⟩ := hstats s hs
      exact ⟨o, List.mem_append_left _ ho⟩
  | finishFlush clock hmain now =>
    refine ⟨h.aggregator, (fun _ _ hw => by cases hw), fun f hf => ?_⟩
    rcases List.mem_append.mp hf with hf | hf
    · exact h.sent f hf
    · -- the flush under way, nothing left to write
      obtain ⟨f', hlast, hclock, hcounts, hstats⟩ := h.writing clock [] hmain
      rw [hlast, Option.toList_some, List.mem_singleton] at hf
      subst hf
      refine ⟨hcounts, fun s hs => ?_⟩
      rcases hstats s hs with hmem | hwritten
      · cases hmem
      · exact hclock ▸ hwritten
  | restart => exact ⟨rfl, (fun _ _ hw => by cases hw), h.sent⟩

end Deployment

/-- **Where every message is**, for every run with stream errors, crashes
and restarts at any step. Each message delivered, as often as it was, is
in memory, or in a flush every entry of which was sent to the store, or
was in memory at a crash. Such a flush has the stats of its messages. And
an offset file is as it was found or says one more than the offset of a
message delivered from a partition that has this file. -/
theorem every_message_accounted (cfg : Config) (feed : Feed) (found : Offsets) (start : ℚ)
    (actions : List Action) :
    let σ := Deployment.run cfg feed found start actions
    σ.delivered.Perm (σ.inMemory cfg ++ messagesOf σ.sent ++ σ.lost) ∧
      (∀ f ∈ σ.sent,
        f.stats = (StatAggregator.new.processBatch cfg.championCost
          (f.messages.map (·.event))).flush.2 ∧
        ∀ s ∈ f.stats, ∃ outcome, (f.clock, s, outcome) ∈ σ.writes) ∧
      ∀ partition, σ.offsets.load partition = found.load partition ∨
        ∃ m ∈ σ.delivered, offsetPath m.partition = offsetPath partition ∧
          σ.offsets.load partition = m.offset + 1 := by
  intro σ
  have hconserved : σ.Conserved cfg :=
    Deployment.run_induction (Deployment.conserved_init cfg found start)
      (fun _ _ h hmoves => h.moves hmoves) actions
  have hflushed : σ.Flushed cfg :=
    Deployment.run_induction ⟨rfl, (fun _ _ hw => by cases hw), fun _ hf => by cases hf⟩
      (fun _ _ h hmoves => h.moves hmoves) actions
  have hpersisted : σ.Persisted cfg found :=
    Deployment.run_induction ⟨fun _ _ _ => trivial, fun _ => Or.inl rfl⟩
      (fun _ _ h hmoves => h.moves hmoves) actions
  refine ⟨List.perm_iff_count.mpr fun m => ?_, hflushed.sent, fun partition => ?_⟩
  · rw [hconserved m, List.count_append, List.count_append]
  · unfold Offsets.load
    rcases hpersisted.offsets (offsetPath partition) with heq | ⟨m, hm, hpath, heq⟩
    · exact Or.inl (by rw [heq])
    · exact Or.inr ⟨m, hm, hpath, by rw [heq, Option.getD_some]⟩

/-- A message comes, its offset is saved, and the process crashes. -/
def crashActions : List Action := [.load 0, .receive 0 50, .put 0, .save 0, .restart 10]

/-- **A saved offset does not mean that what is below it was counted.** -/
theorem not_counted_below_offset : ¬ ∀ (cfg : Config) (feed : Feed) (found : Offsets) (start : ℚ)
    (actions : List Action), let σ := Deployment.run cfg feed found start actions
    ∀ m ∈ σ.delivered, m.offset < σ.offsets.load m.partition →
      ∃ f ∈ σ.sent, m ∈ f.messages := by
  intro h
  obtain ⟨f, hf, -⟩ := h oneConfig emptyFeed (fun _ => none) 0 crashActions
    ⟨partitionName (ascii "NA") (ascii "GOLD"), 50, ⟨ascii "NA", [], ascii "GOLD", [], none⟩⟩
    (by decide) (by decide)
  have hsent : (Deployment.run oneConfig emptyFeed (fun _ => none) 0 crashActions).sent = [] := rfl
  rw [hsent] at hf
  cases hf

end Processor

end TftAnalytics

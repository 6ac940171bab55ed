import TftAnalytics.Ingestion.Model.Scheduler
import TftAnalytics.Common.Observed
/-!
# Ingestion — what one step does

The steps of the ingestor by what they change and what is seen of them
(`Moves`): what is proved of its runs is proved once for each of these.
Numbers are drawn by `generate` and `gotMatch` alone, and what an event that
they make is made of is said here (`Made`).
-/

namespace TftAnalytics

namespace Ingestion

variable {ι : Type}

/-- The task of a worker. -/
def Worker.task : Worker → Option Task
  | .waiting => none
  | .working task _ => some task
  | .publishing task _ _ => some task
  | .done task _ => some task
  | .dead => none

/-- A worker at a place is in its task, with something left to do, or it is
done with it. -/
theorem Worker.at_eq (task : Task) (place : Place) :
    Worker.at task place = .done task false ∨
      ∃ place', Worker.at task place = .working task place' := by
  unfold Worker.at
  split
  · exact .inl rfl
  · exact .inl rfl
  · exact .inl rfl
  · exact .inr ⟨_, rfl⟩
  · exact .inr ⟨_, rfl⟩

@[simp] theorem Worker.task_at (task : Task) (place : Place) :
    (Worker.at task place).task = some task := by
  obtain h | ⟨place', h⟩ := Worker.at_eq task place <;> rw [h] <;> rfl

/-- **What an event is made of**: the task it is for, and the number that is
drawn for it. -/
structure Made (g : Ingestor) (task : Task) (seq : ℕ) (e : PbMatchEvent) : Prop where
  region : e.region = task.2.1
  tier : e.tier = task.2.2
  players : e.players ≠ []
  bound : seq < 2 ^ 63
  clock : e.clock = nodeClock g.nodeId (Int64.ofInt seq)

theorem int64_eq_some {z : ℤ} {n : Int64} (h : int64 z = some n) :
    -2 ^ 63 ≤ z ∧ z < 2 ^ 63 ∧ n = Int64.ofInt z := by
  unfold int64 at h
  split_ifs at h with hz
  exact ⟨hz.1, hz.2, (Option.some.inj h).symm⟩

theorem length_ranked (md5 : GoString → ℕ) (td : Tables) (tier : GoString) (draws : Fin 8 → Draw) :
    (ranked md5 td tier draws).length = 8 := by
  rw [ranked, List.length_insertionSort, List.length_ofFn]

/-- A synthetic match raises or has an event. -/
theorem made_of_synthesize {g : Ingestor} {task : Task} {seq pick : ℕ} {draws : Fin 8 → Draw}
    {uuid : GoString} {now : Int64} {result : Option PbMatchEvent}
    (h : Scheduler.synthesize g task seq pick draws uuid now = some result) :
    ∃ e, result = some e ∧ Made g task seq e ∧ e.patch ∈ g.patches := by
  unfold Scheduler.synthesize at h
  obtain ⟨patch, hpatch, h⟩ := Option.bind_eq_some_iff.mp h
  obtain ⟨n, hn, h⟩ := Option.bind_eq_some_iff.mp h
  obtain ⟨-, hlt, rfl⟩ := int64_eq_some hn
  obtain rfl := Option.some.inj h
  refine ⟨_, rfl, ⟨rfl, rfl, ?_, by exact_mod_cast hlt, rfl⟩, List.mem_of_getElem? hpatch⟩
  rw [generateMatch, ne_eq, List.map_eq_nil_iff, List.zipIdx_eq_nil_iff, ← List.length_eq_zero_iff,
    length_ranked]
  decide

/-- And so does a match of Riot, if it has players. -/
theorem made_of_normalize {g : Ingestor} {task : Task} {seq : ℕ} {now : ℤ}
    {raw : RawMatch} {e : PbMatchEvent}
    (h : normalize g.isDigit now task.2.1 task.2.2 g.nodeId seq raw = some (some e)) :
    Made g task seq e := by
  unfold normalize at h
  rcases hinfo : raw.info with _ | info
  · rw [hinfo] at h
    cases Option.some.inj h
  · rw [hinfo] at h
    obtain ⟨players, -, h⟩ := Option.bind_eq_some_iff.mp h
    split_ifs at h with hnone
    · cases Option.some.inj h
    · obtain ⟨n, hn, h⟩ := Option.bind_eq_some_iff.mp h
      obtain ⟨timestamp, -, h⟩ := Option.bind_eq_some_iff.mp h
      obtain ⟨-, hlt, rfl⟩ := int64_eq_some hn
      cases Option.some.inj h
      exact ⟨rfl, rfl, hnone, by exact_mod_cast hlt, rfl⟩

namespace Scheduler

variable [DecidableEq ι] {g : Ingestor} {s : Scheduler ι}

theorem goto_worker (s : Scheduler ι) (i j : ι) (w : Worker) :
    (s.goto i w).worker j = if j = i then w else s.worker j := Function.update_apply ..

/-- **What one step can do**, and what is seen of it. -/
inductive Moves (g : Ingestor) (s : Scheduler ι) : Scheduler ι → Option (TaskEntry ι) → Prop
  | idle : Moves g s s none
  | enqueue (hpc : s.pc = .loop) :
      Moves g s
        { s with
          queue := g.tasks.foldl (Heapq.heappush Task.lt) s.queue
          unfinished := s.unfinished + g.tasks.length
          pc := .joining }
        (some .enqueued)
  | turn (pc : RunPc) (hpc : pc ≠ .joining) (hdone : s.pc = .joining → s.unfinished = 0) :
      Moves g s { s with pc := pc } none
  | get (i : ι) (task : Task) (queue : List Task) (place : Place) (hw : s.worker i = .waiting)
      (hpop : Heapq.heappop Task.lt s.queue = some (task, queue))
      (hplace : g.synthetic = true → place = .synthetic g.matchesPerTask.toNat) :
      Moves g s { s.goto i (.at task place) with queue := queue } (some (.started i task))
  | raise (i : ι) (task : Task) (hw : (s.worker i).task = some task) :
      Moves g s (s.goto i (.done task true)) none
  | reply (i : ι) (task : Task) (place place' : Place) (hw : s.worker i = .working task place)
      (hplace : ∀ left, place ≠ .synthetic left) :
      Moves g s (s.goto i (.at task place')) none
  | generate (i : ι) (task : Task) (left : ℕ) (result : Option (Option PbMatchEvent))
      (hw : s.worker i = .working task (.synthetic (left + 1)))
      (hresult : ∀ r, result = some r → ∃ e, r = some e ∧ Made g task (s.seq + 1) e ∧
        e.patch ∈ g.patches) :
      Moves g s (s.draw i task (.synthetic left) result).1
        (s.draw i task (.synthetic left) result).2
  | gotMatch (i : ι) (task : Task) (mid : GoString) (mids puuids : List GoString)
      (result : Option (Option PbMatchEvent))
      (hw : s.worker i = .working task (.matches (mid :: mids) puuids))
      (hresult : ∀ e, result = some (some e) → Made g task (s.seq + 1) e) :
      Moves g s (s.draw i task (.matches mids puuids) result).1
        (s.draw i task (.matches mids puuids) result).2
  | accept (n : ℕ) (event : PbMatchEvent) (hn : s.sending[n]? = some event) :
      Moves g s { s with sending := s.sending.eraseIdx n } (some (.published event))
  | published (i : ι) (task : Task) (event : PbMatchEvent) (place : Place)
      (hw : s.worker i = .publishing task event place) (hsent : event ∉ s.sending) :
      Moves g s (s.goto i (.at task place)) none
  | finished (i : ι) (task : Task) (raised : Bool) (hw : s.worker i = .done task raised)
      (hpos : s.unfinished ≠ 0) :
      Moves g s { s.goto i .waiting with unfinished := s.unfinished - 1 }
        (some (.finished i task raised))
  | died (i : ι) (task : Task) (raised : Bool) (hw : s.worker i = .done task raised)
      (hzero : s.unfinished = 0) : Moves g s (s.goto i .dead) none

theorem moves_step (g : Ingestor) (s : Scheduler ι) (ev : TaskEvent ι) :
    Moves g s (s.step g ev).1 (s.step g ev).2 := by
  cases ev with
  | enqueue =>
    rcases hpc : s.pc with _ | _ | _ <;> simp only [step, hpc]
    · exact .enqueue hpc
    · exact .idle
    · exact .idle
  | joined =>
    rcases hpc : s.pc with _ | _ | _ <;> simp only [step, hpc]
    · exact .idle
    · split_ifs with hzero
      · exact .turn .sleeping (by simp) fun _ => hzero
      · exact .idle
    · exact .idle
  | slept =>
    rcases hpc : s.pc with _ | _ | _ <;> simp only [step, hpc]
    · exact .idle
    · exact .idle
    · exact .turn .loop (by simp) (by simp [hpc])
  | get i =>
    simp only [step]
    split
    · rename_i task queue hw hpop
      refine .get i task queue _ hw hpop fun hs => ?_
      rw [if_pos hs]
    · exact .idle
  | generate i pick draws uuid now =>
    simp only [step]
    split
    · rename_i task left hw
      exact .generate i task left _ hw fun r hr => made_of_synthesize hr
    · exact .idle
  | puuids i reply =>
    simp only [step]
    split
    · rename_i task puuids hw
      exact .reply i task _ _ hw (by simp)
    · rename_i task hw
      exact .raise i task (by rw [hw]; rfl)
    · exact .idle
  | matchIds i reply =>
    simp only [step]
    split
    · rename_i task _ puuids mids hw
      exact .reply i task _ _ hw (by simp)
    · rename_i task _ _ hw
      exact .raise i task (by rw [hw]; rfl)
    · exact .idle
  | gotMatch i reply now =>
    simp only [step]
    split
    · rename_i task _ _ _ hw
      exact .raise i task (by rw [hw]; rfl)
    · rename_i task _ mids puuids hw
      exact .reply i task _ _ hw (by simp)
    · rename_i task mid mids puuids raw hw
      exact .gotMatch i task mid mids puuids _ hw fun e he => made_of_normalize he
    · exact .idle
  | accept n =>
    rcases hn : s.sending[n]? with _ | event <;> simp only [step, hn]
    · exact .idle
    · exact .accept n event hn
  | published i raised =>
    simp only [step]
    split
    · rename_i task event place hw
      split_ifs with hraised hsent
      · exact .raise i task (by rw [hw]; rfl)
      · exact .idle
      · exact .published i task event place hw hsent
    · exact .idle
  | taskDone i =>
    simp only [step]
    split
    · rename_i task raised hw
      split_ifs with hzero
      · exact .died i task raised hw hzero
      · exact .finished i task raised hw hzero
    · exact .idle

/-- Only the head of the loop begins a round. -/
theorem Moves.loop {s' : Scheduler ι} (h : s.Moves g s' (some .enqueued)) : s.pc = .loop := by
  generalize he : some TaskEntry.enqueued = c at h
  cases h with
  | enqueue hpc => exact hpc
  | generate i task left result _ _ => rcases result with _ | _ | _ <;> cases he
  | gotMatch i task mid mids puuids result _ _ => rcases result with _ | _ | _ <;> cases he
  | _ => cases he

/-- Only a worker that is done with a task ends it. -/
theorem Moves.done {s' : Scheduler ι} {i : ι} {task : Task} {raised : Bool}
    (h : s.Moves g s' (some (.finished i task raised))) : s.worker i = .done task raised := by
  generalize he : some (TaskEntry.finished i task raised) = c at h
  cases h with
  | finished j t r hw _ =>
    cases he
    exact hw
  | generate j t left result _ _ => rcases result with _ | _ | _ <;> cases he
  | gotMatch j t mid mids puuids result _ _ => rcases result with _ | _ | _ <;> cases he
  | _ => cases he

end Scheduler

/-! ## What one entry adds to a log -/

section

variable (log : List (TaskEntry ι))

@[simp] theorem rounds_append (log' : List (TaskEntry ι)) :
    rounds (log ++ log') = rounds log + rounds log' := List.countP_append

@[simp] theorem starts_append (log' : List (TaskEntry ι)) :
    starts (log ++ log') = starts log ++ starts log' := List.filterMap_append

@[simp] theorem finishes_append (log' : List (TaskEntry ι)) :
    finishes (log ++ log') = finishes log ++ finishes log' := List.filterMap_append

@[simp] theorem numbers_append (log' : List (TaskEntry ι)) :
    numbers (log ++ log') = numbers log ++ numbers log' := List.filterMap_append

@[simp] theorem made_append (log' : List (TaskEntry ι)) :
    made (log ++ log') = made log ++ made log' := List.filterMap_append

@[simp] theorem atBroker_append (log' : List (TaskEntry ι)) :
    atBroker (log ++ log') = atBroker log ++ atBroker log' := List.filterMap_append

end

end Ingestion

end TftAnalytics

import TftAnalytics.Ingestion.Helpers.Scheduler
/-!
# Ingestion — the rounds

`queue.join` is a barrier: a round is put on the queue when every task of
the rounds before is over, whether it raised or not. So the heap holds tasks
of one round at a time, and the workers, however many there are, take them
in the order of their tuples: the highest tier first.
-/

namespace TftAnalytics

namespace Ingestion

open Heapq (IsHeap sorted)

variable {ι : Type}

/-- No two tasks are level. -/
theorem strictOrder_task : Heapq.StrictOrder Task.lt :=
  Heapq.strictOrder_lt.pair (Heapq.strictOrder_lt.pair Heapq.strictOrder_lt)

/-- Putting tasks on the queue. -/
theorem isHeap_put (tasks : List Task) {queue : List Task} (h : IsHeap Task.lt queue) :
    IsHeap Task.lt (tasks.foldl (Heapq.heappush Task.lt) queue) := by
  induction tasks generalizing queue with
  | nil => exact h
  | cons task tasks ih => exact ih (Heapq.isHeap_heappush strictOrder_task.toWeakOrder h task)

theorem put_perm (tasks queue : List Task) :
    (tasks.foldl (Heapq.heappush Task.lt) queue).Perm (tasks ++ queue) := by
  induction tasks generalizing queue with
  | nil => exact List.Perm.refl queue
  | cons task tasks ih =>
    exact (ih _).trans (((Heapq.heappush_perm queue task).append_left tasks).trans
      List.perm_middle)

/-- **The books of the queue**: each task that was taken is over or in the
hands of one worker, and the counter counts what is on the queue and what is
in hands. -/
structure Ledger (log : List (TaskEntry ι)) (s : Scheduler ι) (busy : List (ι × Task)) : Prop where
  nodup : (busy.map Prod.fst).Nodup
  task : ∀ i task, (i, task) ∈ busy ↔ (s.worker i).task = some task
  starts : (starts log).Perm (finishes log ++ busy.map Prod.snd)
  unfinished : s.unfinished = s.queue.length + busy.length

/-- **What a run keeps.** The tasks that were taken, and then those on the
queue in their order, are the rounds. -/
structure InRounds (g : Ingestor) (log : List (TaskEntry ι)) (s : Scheduler ι) : Prop where
  heap : IsHeap Task.lt s.queue
  order : starts log ++ sorted Task.lt s.queue
    = (List.replicate (rounds log) (sorted Task.lt g.tasks)).flatten
  ledger : ∃ busy, Ledger log s busy
  rest : s.pc ≠ .joining → s.unfinished = 0
  alive : ∀ i, s.worker i ≠ .dead

variable {g : Ingestor} {log : List (TaskEntry ι)} {s s' : Scheduler ι}
variable {e : Option (TaskEntry ι)}

/-- With nothing unfinished, the queue is empty and all that was taken is
over. -/
theorem InRounds.barrier (h : InRounds g log s) (h0 : s.unfinished = 0) :
    s.queue = [] ∧ (starts log).Perm (finishes log) := by
  obtain ⟨busy, hledger⟩ := h.ledger
  have hcount := hledger.unfinished
  obtain rfl : busy = [] := List.length_eq_zero_iff.mp (by omega)
  exact ⟨List.length_eq_zero_iff.mp (by omega), by simpa using hledger.starts⟩

/-- **When a round begins**, those before are over. -/
theorem InRounds.complete (h : InRounds g log s) (h0 : s.unfinished = 0) :
    starts log = (List.replicate (rounds log) (sorted Task.lt g.tasks)).flatten ∧
      (finishes log).Perm (starts log) := by
  obtain ⟨hqueue, hperm⟩ := h.barrier h0
  refine ⟨?_, hperm.symm⟩
  rw [← h.order, hqueue]
  exact (List.append_nil _).symm

/-- A step that changes neither the queue nor which worker has which task,
and shows nothing of them. -/
theorem InRounds.quiet (h : InRounds g log s) (hqueue : s'.queue = s.queue)
    (hunfinished : s'.unfinished = s.unfinished) (hrest : s'.pc ≠ .joining → s'.unfinished = 0)
    (htask : ∀ i, (s'.worker i).task = (s.worker i).task) (halive : ∀ i, s'.worker i ≠ .dead)
    (hrounds : rounds e.toList = 0) (hstarts : starts e.toList = [])
    (hfinishes : finishes e.toList = []) : InRounds g (log ++ e.toList) s' := by
  have hlog : starts (log ++ e.toList) = starts log := by
    rw [starts_append, hstarts, List.append_nil]
  refine ⟨hqueue ▸ h.heap, ?_, ?_, hrest, halive⟩
  · rw [hlog, hqueue, rounds_append, hrounds]
    exact h.order
  · obtain ⟨busy, hledger⟩ := h.ledger
    refine ⟨busy, hledger.nodup, fun i task => ?_, ?_, ?_⟩
    · rw [htask]
      exact hledger.task i task
    · rw [hlog, finishes_append, hfinishes, List.append_nil]
      exact hledger.starts
    · rw [hunfinished, hqueue]
      exact hledger.unfinished

section

variable [DecidableEq ι]

/-- A worker that goes on with its task. -/
theorem InRounds.goto (h : InRounds g log s) {i : ι} {w : Worker} {task : Task}
    (hw : (s.worker i).task = some task) (htask : w.task = some task) :
    InRounds g (log ++ (none : Option (TaskEntry ι)).toList) (s.goto i w) := by
  refine h.quiet rfl rfl h.rest (fun j => ?_) (fun j => ?_) rfl rfl rfl
  · rw [Scheduler.goto_worker]
    split_ifs with hji
    · rw [hji, hw, htask]
    · rfl
  · rw [Scheduler.goto_worker]
    split_ifs
    · rintro rfl
      cases htask
    · exact h.alive j

/-- A worker that draws a number. -/
theorem InRounds.draw (h : InRounds g log s) {i : ι} {task : Task}
    (hw : (s.worker i).task = some task) (place : Place)
    (result : Option (Option PbMatchEvent)) :
    InRounds g (log ++ (s.draw i task place result).2.toList) (s.draw i task place result).1 := by
  have hgoto : ∀ (w : Worker), w.task = some task →
      (∀ j, (Function.update s.worker i w j).task = (s.worker j).task) ∧
        ∀ j, Function.update s.worker i w j ≠ .dead := by
    intro w htask
    refine ⟨fun j => ?_, fun j => ?_⟩ <;> rw [Function.update_apply] <;> split_ifs with hji
    · rw [hji, hw, htask]
    · rfl
    · rintro rfl
      cases htask
    · exact h.alive j
  rcases result with _ | _ | event
  · exact h.quiet rfl rfl h.rest (hgoto _ rfl).1 (hgoto _ rfl).2 rfl rfl rfl
  · exact h.quiet rfl rfl h.rest (hgoto _ (Worker.task_at task place)).1
      (hgoto _ (Worker.task_at task place)).2 rfl rfl rfl
  · exact h.quiet rfl rfl h.rest (hgoto _ rfl).1 (hgoto _ rfl).2 rfl rfl rfl

omit [DecidableEq ι] in
/-- A round is put on the queue. -/
theorem InRounds.enqueue (h : InRounds g log s) (hpc : s.pc = .loop) :
    InRounds g (log ++ [.enqueued])
      { s with
        queue := g.tasks.foldl (Heapq.heappush Task.lt) s.queue
        unfinished := s.unfinished + g.tasks.length
        pc := .joining } := by
  have h0 := h.rest (by simp [hpc])
  obtain ⟨hqueue, -⟩ := h.barrier h0
  have hperm : (g.tasks.foldl (Heapq.heappush Task.lt) s.queue).Perm g.tasks := by
    simpa [hqueue] using put_perm g.tasks s.queue
  refine ⟨isHeap_put g.tasks h.heap, ?_, ?_, fun hne => absurd rfl hne, h.alive⟩
  · have hsorted := strictOrder_task.sorted_eq
      (hperm.trans (Heapq.sorted_perm g.tasks).symm)
      (strictOrder_task.toWeakOrder.pairwise_sorted g.tasks)
    rw [starts_append, (h.complete h0).1, rounds_append]
    show _ ++ [] ++ sorted Task.lt (g.tasks.foldl _ s.queue) = (List.replicate (_ + 1) _).flatten
    rw [hsorted, List.append_nil, List.replicate_succ', List.flatten_append,
      List.flatten_singleton]
  · obtain ⟨busy, hledger⟩ := h.ledger
    refine ⟨busy, hledger.nodup, hledger.task, ?_, ?_⟩
    · rw [starts_append, finishes_append]
      show (starts log ++ []).Perm (finishes log ++ [] ++ busy.map Prod.snd)
      rw [List.append_nil, List.append_nil]
      exact hledger.starts
    · have hcount := hledger.unfinished
      rw [hqueue] at hcount
      simp only [hperm.length_eq, hcount, List.length_nil]
      omega

/-- A worker takes a task. -/
theorem InRounds.get (h : InRounds g log s) {i : ι} {task : Task} {queue : List Task}
    {w : Worker} (hw : s.worker i = .waiting) (htask : w.task = some task)
    (hpop : Heapq.heappop Task.lt s.queue = some (task, queue)) :
    InRounds g (log ++ [.started i task]) { s.goto i w with queue := queue } := by
  refine ⟨Heapq.isHeap_heappop strictOrder_task.toWeakOrder h.heap hpop, ?_, ?_, ?_, fun j => ?_⟩
  · rw [rounds_append, starts_append]
    show starts log ++ [task] ++ sorted Task.lt queue = _
    rw [List.append_assoc, List.singleton_append, ← strictOrder_task.sorted_heappop h.heap hpop]
    exact h.order
  · obtain ⟨busy, hledger⟩ := h.ledger
    have hfree : ∀ t, (i, t) ∉ busy := fun t hmem => by
      have hi := (hledger.task i t).mp hmem
      rw [hw] at hi
      cases hi
    refine ⟨(i, task) :: busy, ?_, fun j t => ?_, ?_, ?_⟩
    · refine List.nodup_cons.mpr ⟨fun hmem => ?_, hledger.nodup⟩
      obtain ⟨⟨j, t⟩, hjt, rfl⟩ := List.mem_map.mp hmem
      exact hfree t hjt
    · show _ ↔ ((s.goto i w).worker j).task = some t
      rw [Scheduler.goto_worker, List.mem_cons, Prod.mk.injEq]
      split_ifs with hji
      · subst hji
        rw [htask, Option.some.injEq]
        exact ⟨fun hor => hor.elim (fun h => h.2.symm) fun hmem => absurd hmem (hfree t),
          fun heq => .inl ⟨rfl, heq.symm⟩⟩
      · rw [← hledger.task j t]
        exact or_iff_right fun h => hji h.1
    · rw [starts_append, finishes_append]
      show (starts log ++ [task]).Perm (finishes log ++ [] ++ task :: busy.map Prod.snd)
      rw [List.append_nil]
      exact (List.perm_append_singleton task _).trans
        ((hledger.starts.cons task).trans List.perm_middle.symm)
    · show s.unfinished = queue.length + (busy.length + 1)
      rw [hledger.unfinished, (Heapq.heappop_perm hpop).length_eq, List.length_cons]
      omega
  · intro hpc
    exact h.rest hpc
  · show (s.goto i w).worker j ≠ .dead
    rw [Scheduler.goto_worker]
    split_ifs
    · rintro rfl
      cases htask
    · exact h.alive j

/-- A task is over. -/
theorem InRounds.finished (h : InRounds g log s) {i : ι} {task : Task} {raised : Bool}
    (hw : s.worker i = .done task raised) :
    InRounds g (log ++ [.finished i task raised])
      { s.goto i .waiting with unfinished := s.unfinished - 1 } := by
  refine ⟨h.heap, ?_, ?_, fun hpc => ?_, fun j => ?_⟩
  · rw [rounds_append, starts_append]
    show starts log ++ [] ++ sorted Task.lt s.queue = (List.replicate (rounds log + 0) _).flatten
    rw [List.append_nil]
    exact h.order
  · obtain ⟨busy, hledger⟩ := h.ledger
    have hmem : (i, task) ∈ busy := (hledger.task i task).mpr (by rw [hw]; rfl)
    have hperm := List.perm_cons_erase hmem
    have hnodup := (hperm.map Prod.fst).nodup_iff.mp hledger.nodup
    rw [List.map_cons, List.nodup_cons] at hnodup
    refine ⟨busy.erase (i, task), hnodup.2, fun j t => ?_, ?_, ?_⟩
    · show _ ↔ ((s.goto i .waiting).worker j).task = some t
      rw [Scheduler.goto_worker]
      split_ifs with hji
      · subst hji
        refine ⟨fun hin => absurd (List.mem_map_of_mem hin) hnodup.1, fun hin => ?_⟩
        cases hin
      · rw [← hledger.task j t]
        exact List.mem_erase_of_ne fun heq => hji (congrArg Prod.fst heq)
    · rw [starts_append, finishes_append]
      show (starts log ++ []).Perm (finishes log ++ [task] ++ (busy.erase (i, task)).map Prod.snd)
      rw [List.append_nil, List.append_assoc]
      exact hledger.starts.trans ((hperm.map Prod.snd).append_left _)
    · show s.unfinished - 1 = s.queue.length + (busy.erase (i, task)).length
      rw [hledger.unfinished, hperm.length_eq, List.length_cons]
      omega
  · show s.unfinished - 1 = 0
    rw [h.rest hpc]
  · show (s.goto i .waiting).worker j ≠ .dead
    rw [Scheduler.goto_worker]
    split_ifs
    · simp
    · exact h.alive j

/-- **What one step keeps.** -/
theorem InRounds.move (h : InRounds g log s) (hmove : s.Moves g s' e) :
    InRounds g (log ++ e.toList) s' := by
  cases hmove with
  | idle => exact h.quiet rfl rfl h.rest (fun _ => rfl) h.alive rfl rfl rfl
  | enqueue hpc => exact h.enqueue hpc
  | turn pc hpc hdone =>
    refine h.quiet rfl rfl (fun _ => ?_) (fun _ => rfl) h.alive rfl rfl rfl
    by_cases hjoin : s.pc = .joining
    · exact hdone hjoin
    · exact h.rest hjoin
  | get i task queue place hw hpop _ => exact h.get hw (Worker.task_at task place) hpop
  | raise i task hw => exact h.goto hw rfl
  | reply i task place place' hw _ => exact h.goto (by rw [hw]; rfl) (Worker.task_at task place')
  | generate i task left result hw _ => exact h.draw (by rw [hw]; rfl) _ _
  | gotMatch i task mid mids puuids result hw _ => exact h.draw (by rw [hw]; rfl) _ _
  | accept n event _ => exact h.quiet rfl rfl h.rest (fun _ => rfl) h.alive rfl rfl rfl
  | published i task event place hw _ =>
    exact h.goto (by rw [hw]; rfl) (Worker.task_at task place)
  | finished i task raised hw _ => exact h.finished hw
  | died i task raised hw hzero =>
    -- the counter counts the task that is over
    obtain ⟨busy, hledger⟩ := h.ledger
    have hmem : (i, task) ∈ busy := (hledger.task i task).mpr (by rw [hw]; rfl)
    have hcount := hledger.unfinished
    have hpos := List.length_pos_of_mem hmem
    omega

omit [DecidableEq ι] in
theorem inRounds_init (g : Ingestor) : InRounds g [] (Scheduler.init : Scheduler ι) where
  heap := fun _ => rfl
  order := rfl
  ledger := ⟨[], List.nodup_nil, fun _ _ => by simp [Scheduler.init, Worker.task],
    List.Perm.refl _, rfl⟩
  rest _ := rfl
  alive _ := by simp [Scheduler.init]

/-- **The rounds are in order.** Whatever the workers do, and whichever
tasks raise: the tasks that are taken are, in this order, those of round
after round, each round sorted by priority, region and tier and each task
of it taken once; a round begins when all tasks of the rounds before have
been taken and are over; and `task_done` never raises. -/
theorem rounds_in_order (g : Ingestor) (evs : List (TaskEvent ι)) :
    starts (Scheduler.trace g evs)
        <+: (List.replicate (rounds (Scheduler.trace g evs)) (sorted Task.lt g.tasks)).flatten ∧
      (∀ pre post, Scheduler.trace g evs = pre ++ .enqueued :: post →
        starts pre = (List.replicate (rounds pre) (sorted Task.lt g.tasks)).flatten ∧
          (finishes pre).Perm (starts pre)) ∧
      ∀ i, (Scheduler.run g evs).worker i ≠ .dead := by
  have hstep : ∀ ev ∈ evs, ∀ log s, InRounds g log s →
      InRounds g ((Scheduler.machine g).logged log s ev) ((Scheduler.machine g).next s ev) :=
    fun ev _ log s h => h.move (Scheduler.moves_step g s ev)
  have hrun := Machine.invariant_run hstep (inRounds_init g)
  refine ⟨?_, fun pre post htrace => ?_, hrun.alive⟩
  · rw [List.nil_append] at hrun
    exact ⟨_, hrun.order⟩
  · let Q : List (TaskEntry ι) → TaskEntry ι → Prop := fun log c => c = .enqueued →
      starts log = (List.replicate (rounds log) (sorted Task.lt g.tasks)).flatten ∧
        (finishes log).Perm (starts log)
    have hreport : ∀ ev ∈ evs, ∀ log s c, InRounds g log s →
        (Scheduler.machine g).report s ev = some c → Q log c := by
      rintro ev - log s c h hc rfl
      have hmove := Scheduler.moves_step g s ev
      rw [show (s.step g ev).2 = _ from hc] at hmove
      exact h.complete (h.rest (by simp [hmove.loop]))
    exact Machine.report_of_run (Q := Q) hstep hreport (inRounds_init g) htrace rfl

end

end Ingestion

end TftAnalytics

import TftAnalytics.Ingestion.Helpers.Scheduler
/-!
# Ingestion — the numbers of events

The counter gives out each number once, and an event carries the number
that was drawn for it as its node's clock. So the events of a node are in
one order, that of their numbers, though the broker may get them in
another, and no number comes to it twice. A task that does not raise has
all its matches at the broker.
-/

namespace TftAnalytics

namespace Ingestion

open Metastore (vcDominates clockMap counter)

variable {ι : Type}

/-- The number of an event at a node. -/
def PbMatchEvent.number (node : GoString) (e : PbMatchEvent) : ℤ :=
  (counter e.clock.clocks node).toInt

theorem counter_nodeClock (node : GoString) (n : Int64) :
    counter (nodeClock node n).clocks node = n := by
  show counter (AList.singleton node n) node = n
  rw [counter, ← AList.insert_empty, AList.lookup_insert, Option.getD_some]

/-- One clock of a node dominates another if its number is not less. -/
theorem vcDominates_nodeClock (node : GoString) (m n : Int64) :
    vcDominates (some (nodeClock node m)) (some (nodeClock node n)) = !decide (m < n) := by
  show [(⟨node, n⟩ : Sigma fun _ : GoString => Int64)].all _ = _
  rw [List.all_cons, List.all_nil, Bool.and_true]
  show (!decide (counter (nodeClock node m).clocks node < n)) = _
  rw [counter_nodeClock]

variable {g : Ingestor} {task : Task} {seq : ℕ} {e : PbMatchEvent}

theorem Made.number (h : Made g task seq e) : e.number g.nodeId = seq := by
  rw [PbMatchEvent.number, h.clock, counter_nodeClock]
  have hbound := h.bound
  exact Int64.toInt_ofInt_of_le (by omega) (by omega)

/-- **What a run keeps of the numbers.** -/
structure Numbered (g : Ingestor) (log : List (TaskEntry ι)) (s : Scheduler ι) : Prop where
  seq : numbers log = List.range' 1 s.seq
  drawn : ∀ i task seq e, .drawn i task seq (some e) ∈ log → Made g task seq e
  bound : ∀ e ∈ made log, e.number g.nodeId ≤ s.seq
  order : (made log).Pairwise fun a b => a.number g.nodeId < b.number g.nodeId
  sent : (made log).Perm (atBroker log ++ s.sending)

variable {log : List (TaskEntry ι)} {s s' : Scheduler ι} {c : Option (TaskEntry ι)}

theorem mem_made : e ∈ made log ↔ ∃ i task seq, .drawn i task seq (some e) ∈ log := by
  unfold made
  rw [List.mem_filterMap]
  constructor
  · rintro ⟨c, hc, he⟩
    split at he
    · exact ⟨_, _, _, he ▸ hc⟩
    · cases he
  · rintro ⟨i, task, seq, h⟩
    exact ⟨_, h, rfl⟩

/-- A step that draws no number and sends nothing. -/
theorem Numbered.quiet (h : Numbered g log s) (hseq : s'.seq = s.seq)
    (hsending : s'.sending = s.sending)
    (hc : ∀ i task seq e, c ≠ some (.drawn i task seq e)) (hb : ∀ e, c ≠ some (.published e)) :
    Numbered g (log ++ c.toList) s' := by
  have hnone : numbers c.toList = [] ∧ made c.toList = [] ∧ atBroker c.toList = [] := by
    rcases c with _ | _ | _ | ⟨i, task, seq, e⟩ | e | _
    · exact ⟨rfl, rfl, rfl⟩
    · exact ⟨rfl, rfl, rfl⟩
    · exact ⟨rfl, rfl, rfl⟩
    · exact absurd rfl (hc i task seq e)
    · exact absurd rfl (hb e)
    · exact ⟨rfl, rfl, rfl⟩
  refine ⟨?_, fun i task seq e hmem => ?_, ?_, ?_, ?_⟩
  · rw [numbers_append, hnone.1, List.append_nil, hseq]
    exact h.seq
  · rcases List.mem_append.mp hmem with hmem | hmem
    · exact h.drawn i task seq e hmem
    · exact absurd (Option.mem_toList.mp hmem) (hc i task seq _)
  · rw [made_append, hnone.2.1, List.append_nil, hseq]
    exact h.bound
  · rw [made_append, hnone.2.1, List.append_nil]
    exact h.order
  · rw [made_append, atBroker_append, hnone.2.1, hnone.2.2, List.append_nil, List.append_nil,
      hsending]
    exact h.sent

section

variable [DecidableEq ι]

/-- A number is drawn, whatever comes of it. -/
theorem Numbered.draw (h : Numbered g log s) (i : ι) (task : Task) (place : Place)
    {result : Option (Option PbMatchEvent)}
    (hmade : ∀ e, result = some (some e) → Made g task (s.seq + 1) e) :
    Numbered g (log ++ (s.draw i task place result).2.toList) (s.draw i task place result).1 := by
  have hnumbers : numbers log ++ [s.seq + 1] = List.range' 1 (s.seq + 1) := by
    rw [h.seq, List.range'_1_concat, Nat.add_comm]
  have hnone : ∀ w : Worker, Numbered g (log ++ [.drawn i task (s.seq + 1) none])
      ({ s with seq := s.seq + 1 }.goto i w) := by
    refine fun w => ⟨?_, fun j t n e hmem => ?_, ?_, ?_, ?_⟩
    · rw [numbers_append]
      exact hnumbers
    · rcases List.mem_append.mp hmem with hmem | hmem
      · exact h.drawn j t n e hmem
      · simp at hmem
    · rw [made_append]
      intro e he
      have hbound := h.bound e (by simpa [made] using he)
      show _ ≤ ((s.seq + 1 : ℕ) : ℤ)
      omega
    · rw [made_append]
      simpa [made] using h.order
    · rw [made_append, atBroker_append]
      simpa [made, atBroker, Scheduler.goto] using h.sent
  rcases result with _ | _ | e
  · exact hnone _
  · exact hnone _
  · have he := hmade e rfl
    have hmem : ∀ x, x ∈ made (log ++ [TaskEntry.drawn i task (s.seq + 1) (some e)]) ↔
        x ∈ made log ∨ x = e := fun x => by rw [made_append]; simp [made]
    refine ⟨?_, fun j t n x hx => ?_, fun x hx => ?_, ?_, ?_⟩
    · rw [numbers_append]
      exact hnumbers
    · rcases List.mem_append.mp hx with hx | hx
      · exact h.drawn j t n x hx
      · obtain ⟨-, rfl, rfl, rfl⟩ : j = i ∧ t = task ∧ n = s.seq + 1 ∧ x = e := by
          simpa [Scheduler.draw] using hx
        exact he
    · show _ ≤ ((s.seq + 1 : ℕ) : ℤ)
      rcases (hmem x).mp hx with hx | rfl
      · have hbound := h.bound x hx
        omega
      · rw [he.number]
    · rw [made_append]
      refine List.pairwise_append.mpr ⟨h.order, List.pairwise_singleton _ _, fun x hx y hy => ?_⟩
      obtain rfl : y = e := by simpa [Scheduler.draw, made] using hy
      have hbound := h.bound x hx
      rw [he.number]
      omega
    · rw [made_append, atBroker_append]
      show (made log ++ [e]).Perm (atBroker log ++ [] ++ (s.sending ++ [e]))
      rw [List.append_nil, ← List.append_assoc]
      exact h.sent.append_right [e]

omit [DecidableEq ι] in
/-- The broker gets an event. -/
theorem Numbered.accept (h : Numbered g log s) {n : ℕ} (hn : s.sending[n]? = some e) :
    Numbered g (log ++ [.published e]) { s with sending := s.sending.eraseIdx n } := by
  refine ⟨?_, fun i task seq x hx => ?_, ?_, ?_, ?_⟩
  · rw [numbers_append]
    simpa [numbers] using h.seq
  · exact h.drawn i task seq x (by simpa using hx)
  · rw [made_append]
    simpa [made] using h.bound
  · rw [made_append]
    simpa [made] using h.order
  · obtain ⟨hlt, rfl⟩ := List.getElem?_eq_some_iff.mp hn
    rw [made_append, atBroker_append]
    show (made log ++ []).Perm (atBroker log ++ [s.sending[n]] ++ s.sending.eraseIdx n)
    rw [List.append_nil, List.append_assoc]
    exact h.sent.trans ((List.getElem_cons_eraseIdx_perm hlt).symm.append_left _)

theorem Numbered.move (h : Numbered g log s) (hmove : s.Moves g s' c) :
    Numbered g (log ++ c.toList) s' := by
  cases hmove with
  | generate i task left result _ hresult =>
    refine h.draw i task _ fun e he => ?_
    obtain ⟨x, hx, hmade, -⟩ := hresult _ he
    exact Option.some.inj hx ▸ hmade
  | gotMatch i task mid mids puuids result _ hresult => exact h.draw i task _ hresult
  | accept n event hn => exact h.accept hn
  | _ => exact h.quiet rfl rfl (by simp) (by simp)

/-! ## Tasks that do not raise -/

/-- What a worker has drawn since it took its task: events for the task, all
of which but one on its way are at the broker. -/
structure Drawn (g : Ingestor) (i : ι) (log : List (TaskEntry ι)) (task : Task)
    (es : List PbMatchEvent) (way : Option PbMatchEvent) : Prop where
  lap : lap i log = (es ++ way.toList).map some
  sent : ∀ e ∈ es, e ∈ atBroker log
  away : ∀ e ∈ way, e ∈ made log
  task : ∀ e ∈ es ++ way.toList, e.region = task.2.1 ∧ e.tier = task.2.2 ∧ e.patch ∈ g.patches

/-- **Where a synthetic worker is** after so many events of its task. -/
def Placed (g : Ingestor) (log : List (TaskEntry ι)) (i : ι) : Worker → Prop
  | .waiting => True
  | .working task place => ∃ left es, place = .synthetic left ∧ Drawn g i log task es none ∧
      es.length + left = g.matchesPerTask.toNat
  | .publishing task e place => ∃ left es, place = .synthetic left ∧
      Drawn g i log task es (some e) ∧ es.length + 1 + left = g.matchesPerTask.toNat
  | .done task raised => raised = false → ∃ es, Drawn g i log task es none ∧
      es.length = g.matchesPerTask.toNat
  | .dead => True

theorem Drawn.later {i : ι} {task : Task} {es : List PbMatchEvent} {way : Option PbMatchEvent}
    (h : Drawn g i log task es way) {later : List (TaskEntry ι)}
    (hlap : Ingestion.lap i (log ++ later) = Ingestion.lap i log) :
    Drawn g i (log ++ later) task es way where
  lap := hlap.trans h.lap
  sent e he := by
    rw [atBroker_append]
    exact List.mem_append_left _ (h.sent e he)
  away e he := by
    rw [made_append]
    exact List.mem_append_left _ (h.away e he)
  task := h.task

theorem Placed.later {i : ι} {w : Worker} (h : Placed g log i w) {later : List (TaskEntry ι)}
    (hlap : lap i (log ++ later) = lap i log) : Placed g (log ++ later) i w := by
  cases w with
  | waiting => trivial
  | working task place =>
    obtain ⟨left, es, hplace, hdrawn, hlen⟩ := h
    exact ⟨left, es, hplace, hdrawn.later hlap, hlen⟩
  | publishing task e place =>
    obtain ⟨left, es, hplace, hdrawn, hlen⟩ := h
    exact ⟨left, es, hplace, hdrawn.later hlap, hlen⟩
  | done task raised =>
    intro hraised
    obtain ⟨es, hdrawn, hlen⟩ := h hraised
    exact ⟨es, hdrawn.later hlap, hlen⟩
  | dead => trivial

/-- A worker at the head of its loop. -/
theorem placed_at {i : ι} {task : Task} {es : List PbMatchEvent} (h : Drawn g i log task es none)
    {left : ℕ} (hlen : es.length + left = g.matchesPerTask.toNat) :
    Placed g log i (.at task (.synthetic left)) := by
  rcases left with _ | left
  · exact fun _ => ⟨es, h, hlen⟩
  · exact ⟨left + 1, es, rfl, h, hlen⟩

/-- What an entry of another worker, or of none, adds to a lap. -/
theorem lap_append (i : ι) (log later : List (TaskEntry ι)) (h : ∀ c ∈ later,
    (∀ task, c ≠ .started i task) ∧ ∀ task seq e, c ≠ .drawn i task seq e) :
    lap i (log ++ later) = lap i log := by
  rw [lap, List.foldl_append]
  refine List.foldlRecOn (motive := fun drawn => drawn = lap i log) later _ rfl
    fun drawn hdrawn c hc => ?_
  obtain ⟨hstarted, hother⟩ := h c hc
  rw [← hdrawn]
  cases c with
  | started j task =>
    refine if_neg ?_
    rintro rfl
    exact hstarted task rfl
  | drawn j task seq e =>
    refine if_neg ?_
    rintro rfl
    exact hother task seq e rfl
  | _ => rfl

/-- **What a run of a synthetic ingestor keeps.** -/
structure Lapped (g : Ingestor) (log : List (TaskEntry ι)) (s : Scheduler ι) : Prop where
  numbered : Numbered g log s
  placed : ∀ i, Placed g log i (s.worker i)

/-- A worker moves, and the others stay. -/
theorem Lapped.goto (h : Lapped g log s) {i : ι} {w : Worker}
    (hnumbered : Numbered g (log ++ c.toList) s') (hworker : s'.worker = (s.goto i w).worker)
    (hother : ∀ j ≠ i, ∀ d ∈ c,
      (∀ task, d ≠ .started j task) ∧ ∀ task seq e, d ≠ .drawn j task seq e)
    (hplaced : Placed g (log ++ c.toList) i w) : Lapped g (log ++ c.toList) s' := by
  refine ⟨hnumbered, fun j => ?_⟩
  rw [hworker, Scheduler.goto_worker]
  split_ifs with hji
  · exact hji ▸ hplaced
  · refine (h.placed j).later (lap_append j log _ fun d hd => hother j hji d ?_)
    exact Option.mem_toList.mp hd

/-- A step of no worker. -/
theorem Lapped.quiet (h : Lapped g log s) (hnumbered : Numbered g (log ++ c.toList) s')
    (hworker : s'.worker = s.worker)
    (hother : ∀ j, ∀ d ∈ c,
      (∀ task, d ≠ .started j task) ∧ ∀ task seq e, d ≠ .drawn j task seq e) :
    Lapped g (log ++ c.toList) s' := by
  refine ⟨hnumbered, fun j => ?_⟩
  rw [hworker]
  exact (h.placed j).later (lap_append j log _ fun d hd => hother j d (Option.mem_toList.mp hd))

theorem Lapped.move (h : Lapped g log s) (hsyn : g.synthetic = true) (hmove : s.Moves g s' c) :
    Lapped g (log ++ c.toList) s' := by
  have hnumbered := h.numbered.move hmove
  cases hmove with
  | idle => exact h.quiet hnumbered rfl (by simp)
  | enqueue _ => exact h.quiet hnumbered rfl (by simp)
  | turn _ _ _ => exact h.quiet hnumbered rfl (by simp)
  | accept n e _ => exact h.quiet hnumbered rfl (by simp)
  | get i task queue place hw _ hplace =>
    refine h.goto hnumbered rfl (by simp +contextual [eq_comm]) ?_
    have hdrawn : Drawn g i (log ++ [.started i task]) task [] none := by
      refine ⟨?_, by simp, by simp, by simp⟩
      rw [lap, List.foldl_append]
      exact if_pos rfl
    rw [hplace hsyn]
    exact placed_at hdrawn (Nat.zero_add _)
  | raise i task hw => exact h.goto hnumbered rfl (by simp) (fun hf => by cases hf)
  | reply i task place place' hw hplace =>
    have hplaced := h.placed i
    rw [hw] at hplaced
    obtain ⟨left, -, rfl, -⟩ := hplaced
    exact absurd rfl (hplace left)
  | generate i task left result hw hresult =>
    have hplaced := h.placed i
    rw [hw] at hplaced
    obtain ⟨left', es, hleft, hdrawn, hlen⟩ := hplaced
    obtain rfl : left + 1 = left' := by injection hleft
    rcases result with _ | r
    · exact h.goto hnumbered rfl (by simp +contextual [Scheduler.draw, eq_comm])
        (fun hf => by cases hf)
    · obtain ⟨e, rfl, hmade, hpatch⟩ := hresult r rfl
      refine h.goto hnumbered rfl (by simp +contextual [Scheduler.draw, eq_comm]) ?_
      refine ⟨left, es, rfl, ⟨?_, fun x hx => ?_, fun x hx => ?_, fun x hx => ?_⟩, by omega⟩
      · rw [lap, List.foldl_append]
        show (if i = i then _ else _) = _
        rw [if_pos rfl, show List.foldl _ [] log = lap i log from rfl, hdrawn.lap]
        simp
      · rw [atBroker_append]
        exact List.mem_append_left _ (hdrawn.sent x hx)
      · rw [made_append]
        refine List.mem_append_right _ ?_
        simpa [Scheduler.draw, made, eq_comm] using hx
      · rcases List.mem_append.mp hx with hx | hx
        · exact hdrawn.task x (List.mem_append_left _ hx)
        · obtain rfl := Option.some.inj (Option.mem_toList.mp hx)
          exact ⟨hmade.region, hmade.tier, hpatch⟩
  | gotMatch i task mid mids puuids result hw _ =>
    have hplaced := h.placed i
    rw [hw] at hplaced
    obtain ⟨left, -, hleft, -⟩ := hplaced
    cases hleft
  | published i task e place hw hsent =>
    have hplaced := h.placed i
    rw [hw] at hplaced
    obtain ⟨left, es, rfl, hdrawn, hlen⟩ := hplaced
    refine h.goto hnumbered rfl (by simp) ?_
    have hdrawn' : Drawn g i log task (es ++ [e]) none := by
      refine ⟨by simpa using hdrawn.lap, fun x hx => ?_, by simp, by simpa using hdrawn.task⟩
      rcases List.mem_append.mp hx with hx | hx
      · exact hdrawn.sent x hx
      · obtain rfl := List.mem_singleton.mp hx
        have hmem := h.numbered.sent.mem_iff.mp (hdrawn.away x rfl)
        exact (List.mem_append.mp hmem).resolve_right hsent
    rw [Option.toList_none, List.append_nil]
    exact placed_at hdrawn' (by rw [List.length_append, List.length_singleton]; exact hlen)
  | finished i task raised _ _ => exact h.goto hnumbered rfl (by simp) trivial
  | died i task raised _ _ => exact h.goto hnumbered rfl (by simp) trivial

omit [DecidableEq ι] in
theorem numbered_init (g : Ingestor) : Numbered g [] (Scheduler.init : Scheduler ι) where
  seq := rfl
  drawn _ _ _ _ h := by cases h
  bound _ h := by cases h
  order := List.Pairwise.nil
  sent := List.Perm.nil

theorem lapped_init (g : Ingestor) : Lapped g [] (Scheduler.init : Scheduler ι) :=
  ⟨numbered_init g, fun _ => trivial⟩

/-- **Events are numbered.** In any run, the numbers that are drawn are 1, 2,
3 and so on, each once; an event that is made has players, the region and
the tier of its task, and the number that was drawn for it as its clock; the
broker gets it once at most; and of two events, the clock of the one made
later dominates the other's and is not dominated. -/
theorem events_numbered (g : Ingestor) (evs : List (TaskEvent ι)) :
    numbers (Scheduler.trace g evs)
        = List.range' 1 (numbers (Scheduler.trace g evs)).length ∧
      (∀ i task seq e, .drawn i task seq (some e) ∈ Scheduler.trace g evs → Made g task seq e) ∧
      (atBroker (Scheduler.trace g evs)).Nodup ∧
      (atBroker (Scheduler.trace g evs)).Subperm (made (Scheduler.trace g evs)) ∧
      (made (Scheduler.trace g evs)).Pairwise fun a b =>
        vcDominates (some b.clock) (some a.clock) = true ∧
          vcDominates (some a.clock) (some b.clock) = false := by
  have hrun : Numbered g ([] ++ Scheduler.trace g evs) (Scheduler.run g evs) :=
    Machine.invariant_run (M := Scheduler.machine g) (P := Numbered g)
      (fun ev _ log s h => h.move (Scheduler.moves_step g s ev)) (numbered_init g)
  rw [List.nil_append] at hrun
  have hsub : (atBroker (Scheduler.trace g evs)).Subperm (made (Scheduler.trace g evs)) :=
    (List.sublist_append_left _ _).subperm.trans hrun.sent.symm.subperm
  have hnodup : (made (Scheduler.trace g evs)).Nodup := hrun.order.imp fun h heq => by
    rw [heq] at h
    exact lt_irrefl _ h
  refine ⟨?_, hrun.drawn, (hrun.sent.nodup_iff.mp hnodup).of_append_left, hsub, ?_⟩
  · have hseq : numbers (Scheduler.trace g evs) = List.range' 1 _ := hrun.seq
    rw [hseq, List.length_range']
  · refine hrun.order.imp_of_mem fun {a b} ha hb hlt => ?_
    obtain ⟨_, _, m, ha⟩ := mem_made.mp ha
    obtain ⟨_, _, n, hb⟩ := mem_made.mp hb
    have ha := hrun.drawn _ _ _ _ ha
    have hb := hrun.drawn _ _ _ _ hb
    rw [ha.number, hb.number] at hlt
    have hm := ha.bound
    have hn := hb.bound
    rw [ha.clock, hb.clock, vcDominates_nodeClock, vcDominates_nodeClock]
    simp only [Int64.lt_iff_toInt_lt,
      Int64.toInt_ofInt_of_le (show -2 ^ 63 ≤ (m : ℤ) by omega) (show (m : ℤ) < 2 ^ 63 by omega),
      Int64.toInt_ofInt_of_le (show -2 ^ 63 ≤ (n : ℤ) by omega) (show (n : ℤ) < 2 ^ 63 by omega)]
    simp only [Bool.not_eq_true', decide_eq_false_iff_not, Bool.not_eq_false', decide_eq_true_eq]
    omega

/-- **A task that does not raise is complete.** In any run of a synthetic
ingestor, when a task is over and has not raised, its worker has drawn
`matches_per_task` numbers since it took the task, each for an event with
the region and the tier of the task and one of the patches, and the broker
has all of these events. -/
theorem tasks_complete (g : Ingestor) (hsyn : g.synthetic = true) (evs : List (TaskEvent ι))
    {pre post : List (TaskEntry ι)} {i : ι} {task : Task}
    (htrace : Scheduler.trace g evs = pre ++ .finished i task false :: post) :
    ∃ es : List PbMatchEvent, lap i pre = es.map some ∧ es.length = g.matchesPerTask.toNat ∧
      ∀ e ∈ es, e ∈ atBroker pre ∧ e.region = task.2.1 ∧ e.tier = task.2.2 ∧
        e.patch ∈ g.patches := by
  let Q : List (TaskEntry ι) → TaskEntry ι → Prop := fun log c => ∀ i task,
    c = .finished i task false → ∃ es, Drawn g i log task es none ∧
      es.length = g.matchesPerTask.toNat
  have hreport : ∀ ev ∈ evs, ∀ log s c, Lapped g log s →
      (Scheduler.machine g).report s ev = some c → Q log c := by
    rintro ev - log s c h hc i task rfl
    have hmove := Scheduler.moves_step g s ev
    rw [show (s.step g ev).2 = _ from hc] at hmove
    have hplaced := h.placed i
    rw [hmove.done] at hplaced
    exact hplaced rfl
  obtain ⟨es, hdrawn, hlen⟩ := Machine.report_of_run (P := Lapped g) (Q := Q)
    (fun ev _ log s h => h.move hsyn (Scheduler.moves_step g s ev)) hreport (lapped_init g)
    htrace i task rfl
  refine ⟨es, by simpa using hdrawn.lap, hlen, fun e he => ⟨hdrawn.sent e he, ?_⟩⟩
  exact hdrawn.task e (by simpa using he)

/-- An ingestor with one task of one match, and no tables. -/
def oneMatch : Ingestor :=
  { nodeId := ascii "ingest-1", regions := [ascii "NA"], tiers := [ascii "IRON"],
    patches := [ascii "17.3"], matchesPerTask := 1, synthetic := true,
    td := ⟨[], [], [], [], [], []⟩, md5 := fun _ => 0, isDigit := fun _ => false }

/-- A player with nothing. -/
def noDraw : Draw := ⟨⟨[], none, []⟩, [], [], 0, [], 30⟩

/-- Its match. -/
def onlyMatch : PbMatchEvent :=
  generateMatch oneMatch.md5 oneMatch.td (ascii "NA") (ascii "IRON") (ascii "17.3")
    (ascii "ingest-1") 1 (fun _ => noDraw) [] 0

theorem tasks_complete_one : ∃ es : List PbMatchEvent,
    lap 0 [.enqueued, .started 0 (8, ascii "NA", ascii "IRON"),
        .drawn 0 (8, ascii "NA", ascii "IRON") 1 (some onlyMatch), .published onlyMatch]
      = es.map some ∧ es.length = 1 ∧
    ∀ e ∈ es, e ∈ atBroker [TaskEntry.enqueued, .started 0 (8, ascii "NA", ascii "IRON"),
        .drawn 0 (8, ascii "NA", ascii "IRON") 1 (some onlyMatch), .published onlyMatch] ∧
      e.region = ascii "NA" ∧ e.tier = ascii "IRON" ∧ e.patch ∈ [ascii "17.3"] :=
  tasks_complete oneMatch rfl
    [.enqueue, .get 0, .generate 0 0 (fun _ => noDraw) [] 0, .accept 0, .published 0 false,
      .taskDone 0]
    (show Scheduler.trace oneMatch _ = [.enqueued, .started 0 (8, ascii "NA", ascii "IRON"),
        .drawn 0 (8, ascii "NA", ascii "IRON") 1 (some onlyMatch), .published onlyMatch]
      ++ .finished 0 (8, ascii "NA", ascii "IRON") false :: [] from rfl)

end

end Ingestion

end TftAnalytics

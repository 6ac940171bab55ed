import TftAnalytics.Processor.Model.Calls
import TftAnalytics.Metastore.Helpers.VClock
/-!
# Processor — what a pop releases

Helper layer. What `pop_ready` keeps and what it returns are together what
was held; the watermark moves up to the clocks of the events returned and
no further; nothing is kept that is ready under the new watermark. Where
no event was forced, each one returned was ready in its turn.
-/

namespace TftAnalytics

namespace Processor

open Metastore (clockMap counter clockSum clockSum_eq_sum clockNodes)

variable {ε : Type} [HasClock ε]

/-! ## Clocks -/

theorem seqOf_of_mem {event : ε} {p : GoString × ℤ} (h : p ∈ clockItems event) :
    seqOf event p.1 = p.2 := by
  obtain ⟨q, hq, rfl⟩ := List.mem_map.mp h
  have hlookup : (clockMap (HasClock.clock event)).lookup q.1 = some q.2 :=
    AList.mem_lookup_iff.mpr hq
  show (counter _ q.1).toInt = q.2.toInt
  rw [counter, hlookup, Option.getD_some]

/-- A component is an item of the clock, or zero. -/
theorem mem_clockItems_or (event : ε) (node : GoString) :
    (node, seqOf event node) ∈ clockItems event ∨ seqOf event node = 0 := by
  unfold seqOf counter
  cases h : (clockMap (HasClock.clock event)).lookup node with
  | none => exact Or.inr rfl
  | some v => exact Or.inl (List.mem_map.mpr ⟨⟨node, v⟩, AList.mem_lookup_iff.mp h, rfl⟩)

/-- The clock of the later event has the larger sum. -/
theorem Precedes.vcSum_lt {a b : ε} (h : Precedes a b) : vcSum a < vcSum b := by
  obtain ⟨hle, node, hne⟩ := h
  have hsum : ∀ e : ε, vcSum e = clockSum (HasClock.clock e) := fun e => by
    unfold vcSum clockItems clockSum
    rw [List.map_map]
    rfl
  have hnodes : ∀ e : ε, node ∉ clockNodes (HasClock.clock e) → seqOf e node = 0 := by
    intro e hnot
    have hmem : node ∉ clockMap (HasClock.clock e) := fun hmem => hnot (List.mem_toFinset.mpr hmem)
    unfold seqOf counter
    rw [AList.lookup_eq_none.mpr hmem]
    rfl
  set nodes := clockNodes (HasClock.clock a) ∪ clockNodes (HasClock.clock b)
  rw [hsum, hsum, clockSum_eq_sum (s := nodes) Finset.subset_union_left,
    clockSum_eq_sum (s := nodes) Finset.subset_union_right]
  refine Finset.sum_lt_sum (fun n _ => hle n) ⟨node, ?_, lt_of_le_of_ne (hle node) hne⟩
  by_contra hnot
  rw [Finset.mem_union, not_or] at hnot
  exact hne ((hnodes a hnot.1).trans (hnodes b hnot.2).symm)

/-! ## The watermark -/

/-- One item raises its own node's component. -/
theorem raise_apply (delivered : GoString → ℤ) (p : GoString × ℤ) (node : GoString) :
    (if delivered p.1 < p.2 then Function.update delivered p.1 p.2 else delivered) node
      = if node = p.1 then max (delivered node) p.2 else delivered node := by
  by_cases hnode : node = p.1
  · subst hnode
    rw [if_pos rfl]
    split_ifs with hlt
    · rw [Function.update_self, max_eq_right hlt.le]
    · rw [max_eq_left (not_lt.mp hlt)]
  · rw [if_neg hnode]
    split_ifs
    · exact Function.update_of_ne hnode _ _
    · rfl

theorem raise_spec (items : List (GoString × ℤ)) :
    ∀ delivered : GoString → ℤ,
      let raised := items.foldl
        (fun delivered p =>
          if delivered p.1 < p.2 then Function.update delivered p.1 p.2 else delivered)
        delivered
      (∀ node, delivered node ≤ raised node) ∧ (∀ p ∈ items, p.2 ≤ raised p.1) ∧
        ∀ node, raised node = delivered node ∨ (node, raised node) ∈ items := by
  induction items with
  | nil =>
    exact fun _ => ⟨fun _ => le_rfl, fun _ h => absurd h List.not_mem_nil, fun _ => Or.inl rfl⟩
  | cons p items ih =>
    intro delivered
    rw [List.foldl_cons]
    obtain ⟨hle, hitems, hfrom⟩ := ih
      (if delivered p.1 < p.2 then Function.update delivered p.1 p.2 else delivered)
    simp only [raise_apply] at hle hfrom
    refine ⟨fun node => le_trans ?_ (hle node), ?_, ?_⟩
    · split_ifs
      · exact le_max_left _ _
      · exact le_rfl
    · intro q hq
      rcases List.mem_cons.mp hq with rfl | hq
      · refine le_trans ?_ (hle q.1)
        rw [if_pos rfl]
        exact le_max_right _ _
      · exact hitems q hq
    · intro node
      rcases hfrom node with heq | hmem
      · -- no later item raised the node, so the first one did or nothing did
        rw [heq]
        split_ifs with hnode
        · rcases max_choice (delivered node) p.2 with hmax | hmax <;> rw [hmax]
          · exact Or.inl rfl
          · exact Or.inr (hnode ▸ List.mem_cons_self ..)
        · exact Or.inl rfl
      · exact Or.inr (List.mem_cons_of_mem _ hmem)

theorem le_deliver (delivered : GoString → ℤ) (event : ε) (node : GoString) :
    delivered node ≤ deliver delivered event node :=
  (raise_spec (clockItems event) delivered).1 node

theorem deliver_eq (delivered : GoString → ℤ) (event : ε) (node : GoString) :
    deliver delivered event node = delivered node
      ∨ deliver delivered event node = seqOf event node := by
  rcases (raise_spec (clockItems event) delivered).2.2 node with heq | hmem
  · exact Or.inl heq
  · exact Or.inr (seqOf_of_mem hmem).symm

/-- Ready: no component is more than one above the watermark. -/
theorem isReady_iff {delivered : GoString → ℤ} (h : ∀ node, 0 ≤ delivered node) {event : ε} :
    isReady delivered event = true ↔ ∀ node, seqOf event node ≤ delivered node + 1 := by
  unfold isReady
  simp only [List.all_eq_true, Bool.not_eq_true', decide_eq_false_iff_not, not_lt]
  constructor
  · intro hall node
    rcases mem_clockItems_or event node with hmem | hzero
    · exact hall _ hmem
    · have := h node
      omega
  · intro hall p hp
    have := hall p.1
    rwa [seqOf_of_mem hp] at this

/-- **The watermark is a maximum**, of where it was and the components of
the events delivered, whatever their signs. -/
theorem isGreatest_foldl_deliver (events : List ε) (delivered : GoString → ℤ) (node : GoString) :
    IsGreatest (insert (delivered node) {v | ∃ e ∈ events, (node, v) ∈ clockItems e})
      (events.foldl deliver delivered node) := by
  induction events generalizing delivered with
  | nil => simp
  | cons e events ih =>
    obtain ⟨hfrom, htop⟩ := ih (deliver delivered e)
    obtain ⟨hle, hitems, hraised⟩ := raise_spec (clockItems e) delivered
    rw [List.foldl_cons]
    constructor
    · rcases Set.mem_insert_iff.mp hfrom with heq | ⟨e', he', hmem⟩
      · rw [heq]
        rcases hraised node with hold | hmem
        · exact Set.mem_insert_iff.mpr (Or.inl hold)
        · exact Set.mem_insert_of_mem _ ⟨e, List.mem_cons_self .., hmem⟩
      · exact Set.mem_insert_of_mem _ ⟨e', List.mem_cons_of_mem _ he', hmem⟩
    · have hstart : deliver delivered e node ≤ events.foldl deliver (deliver delivered e) node :=
        htop (Set.mem_insert _ _)
      rintro v (rfl | ⟨e', he', hv⟩)
      · exact (hle node).trans hstart
      · rcases List.mem_cons.mp he' with rfl | he'
        · exact (hitems _ hv).trans hstart
        · exact htop (Set.mem_insert_of_mem _ ⟨e', he', hv⟩)

theorem le_foldl_deliver (events : List ε) (delivered : GoString → ℤ) (node : GoString) :
    delivered node ≤ events.foldl deliver delivered node :=
  (isGreatest_foldl_deliver events delivered node).2 (Set.mem_insert _ _)

/-- What has been delivered is below the watermark. -/
theorem seqOf_le_foldl_deliver {events : List ε} {delivered : GoString → ℤ} {node : GoString}
    (h : 0 ≤ delivered node) {e : ε} (he : e ∈ events) :
    seqOf e node ≤ events.foldl deliver delivered node := by
  rcases mem_clockItems_or e node with hmem | hzero
  · exact (isGreatest_foldl_deliver events delivered node).2
      (Set.mem_insert_of_mem _ ⟨e, he, hmem⟩)
  · rw [hzero]
    exact h.trans (le_foldl_deliver events delivered node)

/-! ## A pop -/

/-- Each event is ready once those before it are delivered. -/
def ReadyInTurn : (GoString → ℤ) → List ε → Prop
  | _, [] => True
  | delivered, e :: events =>
    isReady delivered e = true ∧ ReadyInTurn (deliver delivered e) events

theorem ReadyInTurn.snoc {events : List ε} {e : ε} :
    ∀ {delivered : GoString → ℤ}, ReadyInTurn delivered events →
      isReady (events.foldl deliver delivered) e = true →
        ReadyInTurn delivered (events ++ [e]) := by
  induction events with
  | nil => exact fun _ he => ⟨he, trivial⟩
  | cons e' events ih => exact fun h he => ⟨h.1, ih h.2 he⟩

/-- An item that a pass leaves: not ready, and not held for the timeout. -/
def Stuck (timeout now : ℚ) (delivered : GoString → ℤ) (item : Item ε) : Prop :=
  isReady delivered item.event = false ∧ ¬ timeout ≤ now - item.arrival

/-- **What holds within a pop** of a buffer, with items still to visit. -/
structure Pass.Good (rb : ReorderBuffer ε) (now : ℚ) (rest : List (Item ε)) (p : Pass ε) :
    Prop where
  perm : (p.out ++ (p.keep ++ rest).map (·.event)).Perm (rb.heap.map (·.event))
  delivered : p.delivered = p.out.foldl deliver rb.delivered
  forced : rb.forced ≤ p.forced
  ready : p.forced = rb.forced → ReadyInTurn rb.delivered p.out
  stuck : p.progressed = false → ∀ item ∈ p.keep, Stuck rb.timeout now p.delivered item

open ReorderBuffer

variable {rb : ReorderBuffer ε} {now : ℚ}

omit [HasClock ε] in
/-- Releasing an event takes it from what is to be visited. -/
theorem perm_release {out : List ε} {keep rest : List (Item ε)} {item : Item ε} :
    (out ++ [item.event] ++ (keep ++ rest).map (·.event)).Perm
      (out ++ (keep ++ item :: rest).map (·.event)) := by
  rw [List.append_assoc, List.singleton_append]
  have hmiddle : (item :: (keep ++ rest)).Perm (keep ++ item :: rest) := List.perm_middle.symm
  exact (hmiddle.map (·.event)).append_left out

theorem Pass.Good.visit {item : Item ε} {rest : List (Item ε)} {p : Pass ε}
    (h : p.Good rb now (item :: rest)) : (visit rb.timeout now p item).Good rb now rest := by
  unfold ReorderBuffer.visit
  split_ifs with hready htime
  · -- ready
    exact
      { perm := perm_release.trans h.perm
        delivered := by rw [List.foldl_append, ← h.delivered]; rfl
        forced := h.forced
        ready := fun hf => (h.ready hf).snoc (h.delivered ▸ hready)
        stuck := fun hp => absurd hp (by simp) }
  · -- held for the timeout, and forced out
    exact
      { perm := perm_release.trans h.perm
        delivered := by rw [List.foldl_append, ← h.delivered]; rfl
        forced := h.forced.trans (Nat.le_succ _)
        ready := fun hf => by
          have hle := h.forced
          have hf : p.forced + 1 = rb.forced := hf
          omega
        stuck := fun hp => absurd hp (by simp) }
  · -- kept for the next pass
    exact
      { perm := by
          show (p.out ++ (p.keep ++ [item] ++ rest).map _).Perm _
          rw [List.append_assoc, List.singleton_append]
          exact h.perm
        delivered := h.delivered
        forced := h.forced
        ready := h.ready
        stuck := fun hp kept hkept => by
          rcases List.mem_append.mp hkept with hkept | hkept
          · exact h.stuck hp kept hkept
          · obtain rfl := List.mem_singleton.mp hkept
            exact ⟨by simpa using hready, htime⟩ }

theorem Pass.Good.foldl_visit (items : List (Item ε)) :
    ∀ {p : Pass ε}, p.Good rb now items →
      (items.foldl (ReorderBuffer.visit rb.timeout now) p).Good rb now [] := by
  induction items with
  | nil => exact fun h => h
  | cons item items ih => exact fun h => ih h.visit

/-- One pass keeps what holds. -/
theorem Pass.Good.scan {p : Pass ε} (h : p.Good rb now []) :
    (scan rb.timeout now p).Good rb now [] := by
  refine Pass.Good.foldl_visit p.keep ?_
  exact
    { perm := by simpa using h.perm
      delivered := h.delivered
      forced := h.forced
      ready := h.ready
      stuck := fun _ _ hkept => absurd hkept List.not_mem_nil }

/-- A pass that releases an event keeps fewer. -/
theorem foldl_visit_length (timeout now : ℚ) (items : List (Item ε)) :
    ∀ p : Pass ε, let p' := items.foldl (visit timeout now) p
      p'.keep.length ≤ p.keep.length + items.length ∧
        (p'.progressed = true →
          p.progressed = true ∨ p'.keep.length < p.keep.length + items.length) := by
  induction items with
  | nil => exact fun p => ⟨le_rfl, Or.inl⟩
  | cons item items ih =>
    intro p
    rw [List.foldl_cons, List.length_cons]
    obtain ⟨hle, hlt⟩ := ih (visit timeout now p item)
    by_cases hkept : (visit timeout now p item).keep = p.keep
    · rw [hkept] at hle
      exact ⟨by omega, fun _ => Or.inr (by omega)⟩
    · -- kept: the flag is as before
      have hvisit : visit timeout now p item = { p with keep := p.keep ++ [item] } := by
        unfold visit at hkept ⊢
        split_ifs at hkept ⊢ <;> first | rfl | exact absurd rfl hkept
      rw [hvisit] at hle hlt ⊢
      simp only [List.length_append, List.length_singleton] at hle hlt
      refine ⟨by omega, fun hp => ?_⟩
      rcases hlt hp with hp | hlt
      · exact Or.inl hp
      · exact Or.inr (by omega)

theorem scan_length (timeout now : ℚ) {p : Pass ε}
    (h : (scan timeout now p).progressed = true) :
    (scan timeout now p).keep.length < p.keep.length := by
  rcases (foldl_visit_length timeout now p.keep { p with keep := [], progressed := false }).2 h
    with hfalse | hlt
  · exact absurd hfalse Bool.false_ne_true
  · rw [List.length_nil, Nat.zero_add] at hlt
    exact hlt

/-- **The loop ends**: with fuel for every item held, in a pass that
releases nothing, or with nothing kept. -/
theorem Pass.Good.settle (rb : ReorderBuffer ε) (now : ℚ) (fuel : ℕ) :
    ∀ {p : Pass ε}, p.Good rb now [] → (p.progressed = true → p.keep.length < fuel) →
      (settle rb.timeout now fuel p).Good rb now [] ∧
        ((settle rb.timeout now fuel p).progressed = false ∨
          (settle rb.timeout now fuel p).keep = []) := by
  induction fuel with
  | zero =>
    intro p h hfuel
    cases hp : p.progressed with
    | false => exact ⟨h, Or.inl hp⟩
    | true => exact absurd (hfuel hp) (Nat.not_lt_zero _)
  | succ fuel ih =>
    intro p h hfuel
    unfold ReorderBuffer.settle
    split_ifs with hmore
    · -- a pass that goes on has released something, so fuel outlasts what is kept
      refine ih h.scan fun hp => ?_
      have hshorter := scan_length rb.timeout now hp
      have hleft := hfuel hmore.1
      omega
    · refine ⟨h, ?_⟩
      cases hp : p.progressed with
      | false => exact Or.inl rfl
      | true => exact Or.inr (by simpa [hp] using hmore)

/-- **A push adds its event.** -/
theorem events_push (rb : ReorderBuffer ε) (event : ε) (now : ℚ) :
    (rb.push event now).events.Perm (event :: rb.events) :=
  (Heapq.heappush_perm _ _).map _

/-- **A pop** releases events in some order, each ready in its turn unless
it is forced, keeps what is stuck, and loses none. -/
theorem popReady_spec (rb : ReorderBuffer ε) (now : ℚ) :
    ∃ released : List ε,
      (rb.popReady now).2.Perm released ∧
      ((rb.popReady now).2 ++ (rb.popReady now).1.events).Perm rb.events ∧
      (rb.popReady now).1.delivered = released.foldl deliver rb.delivered ∧
      rb.forced ≤ (rb.popReady now).1.forced ∧
      ((rb.popReady now).1.forced = rb.forced → ReadyInTurn rb.delivered released) ∧
      ∀ item ∈ (rb.popReady now).1.heap,
        Stuck rb.timeout now (rb.popReady now).1.delivered item := by
  -- with one round more than items the rounds come to an end
  obtain ⟨hgood, hdone⟩ := Pass.Good.settle rb now (rb.heap.length + 1)
    (p := ⟨rb.delivered, rb.forced, [], rb.heap, true⟩)
    { perm := by simp
      delivered := rfl
      forced := le_rfl
      ready := fun _ => trivial
      stuck := fun hp => absurd hp (by simp) }
    (fun _ => Nat.lt_succ_self _)
  have hsort := List.perm_insertionSort (fun a b : ε => vcSum a ≤ vcSum b)
    (settle rb.timeout now (rb.heap.length + 1)
      ⟨rb.delivered, rb.forced, [], rb.heap, true⟩).out
  refine ⟨_, hsort, ?_, hgood.delivered, hgood.forced, hgood.ready, ?_⟩
  · unfold events
    refine (hsort.append ((Heapq.heapify_perm _).map _)).trans ?_
    simpa using hgood.perm
  · intro item hitem
    have hitem := (Heapq.heapify_perm _).mem_iff.mp hitem
    rcases hdone with hdone | hdone
    · exact hgood.stuck hdone item hitem
    · rw [hdone] at hitem
      cases hitem

/-- What a pop returns is sorted by the sums of the clocks. -/
theorem popReady_sorted (rb : ReorderBuffer ε) (now : ℚ) :
    (rb.popReady now).2.Pairwise fun a b => vcSum a ≤ vcSum b := by
  have : Std.Total (fun a b : ε => vcSum a ≤ vcSum b) := ⟨fun a b => le_total _ _⟩
  have : IsTrans ε (fun a b : ε => vcSum a ≤ vcSum b) := ⟨fun _ _ _ => le_trans⟩
  exact List.pairwise_insertionSort _ _

end Processor

end TftAnalytics

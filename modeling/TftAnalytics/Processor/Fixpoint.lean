import TftAnalytics.Processor.Helpers.Reorder
import Mathlib.Order.FixedPoints
import Mathlib.Order.CompletePartialOrder
import Mathlib.Logic.Function.Iterate
/-!
# Processor — what a pop computes

An event may go once it is held for the timeout, or each component of its
clock is at most one above the watermark or a component of an event that
goes. The least set of held events closed under this does not mention
the order they are held in, and is what `pop_ready` releases
(`popReady_released`), whatever its passes find first. The loop ends, the
watermark is the maximum over what was released, and nothing is lost
(`popReady_fixpoint`).
-/

namespace TftAnalytics

namespace Processor

variable {ε : Type} [HasClock ε] {rb rb' : ReorderBuffer ε} {now : ℚ}

/-! ## What may go -/

/-- What may go, given what goes: an item held for the timeout, or one
whose components follow the watermark or a component of what goes. -/
def release (rb : ReorderBuffer ε) (now : ℚ) : Set (Item ε) →o Set (Item ε) where
  toFun goes := {item | item ∈ rb.heap ∧ (rb.timeout ≤ now - item.arrival ∨
    ∀ p ∈ clockItems item.event, p.2 ≤ rb.delivered p.1 + 1 ∨
      ∃ other ∈ goes, ∃ v, (p.1, v) ∈ clockItems other.event ∧ p.2 ≤ v + 1)}
  monotone' := by
    rintro goes goes' hsub item ⟨hheld, htime | hready⟩
    · exact ⟨hheld, Or.inl htime⟩
    · refine ⟨hheld, Or.inr fun p hp => (hready p hp).imp_right ?_⟩
      rintro ⟨other, hother, v, hv, hle⟩
      exact ⟨other, hsub hother, v, hv, hle⟩

/-- **What goes**: the least set that lets no more go. -/
def goes (rb : ReorderBuffer ε) (now : ℚ) : Set (Item ε) := (release rb now).lfp

/-- The order of the heap is not looked at. -/
theorem goes_congr (htimeout : rb'.timeout = rb.timeout) (hwater : rb'.delivered = rb.delivered)
    (hheap : rb'.heap.Perm rb.heap) (now : ℚ) : goes rb' now = goes rb now := by
  have hrelease : release rb' now = release rb now := by
    refine OrderHom.ext _ _ (funext fun goes => Set.ext fun item => ?_)
    show (item ∈ rb'.heap ∧ _) ↔ (item ∈ rb.heap ∧ _)
    rw [hheap.mem_iff, htimeout, hwater]
  rw [goes, goes, hrelease]

/-! ## Passes -/

open ReorderBuffer

/-- **Within a pop**: the items released so far, all of which go, and what
is left of the heap. -/
structure Pass.Follows (rb : ReorderBuffer ε) (now : ℚ) (released rest : List (Item ε))
    (p : Pass ε) : Prop where
  out : p.out = released.map (·.event)
  perm : (released ++ (p.keep ++ rest)).Perm rb.heap
  goes : ∀ item ∈ released, item ∈ goes rb now

/-- An item that is ready in its turn goes. -/
theorem Pass.Follows.goes_of_ready {released rest : List (Item ε)} {item : Item ε} {p : Pass ε}
    (h : p.Follows rb now released (item :: rest)) (hgood : p.Good rb now (item :: rest))
    (hready : isReady p.delivered item.event = true) : item ∈ Processor.goes rb now := by
  have hheld : item ∈ rb.heap := h.perm.mem_iff.mp (by simp)
  rw [Processor.goes, ← OrderHom.map_lfp]
  refine ⟨hheld, Or.inr fun q hq => ?_⟩
  have hle : q.2 ≤ p.delivered q.1 + 1 := by
    have hall := List.all_eq_true.mp hready q hq
    simpa using hall
  -- the watermark is where it was, or at a component of an item that went
  have hfrom := (isGreatest_foldl_deliver p.out rb.delivered q.1).1
  rw [← hgood.delivered] at hfrom
  rcases Set.mem_insert_iff.mp hfrom with heq | ⟨e, he, hmem⟩
  · exact Or.inl (heq ▸ hle)
  · rw [h.out] at he
    obtain ⟨other, hother, rfl⟩ := List.mem_map.mp he
    exact Or.inr ⟨other, h.goes other hother, _, hmem, hle⟩

theorem Pass.Follows.visit {released rest : List (Item ε)} {item : Item ε} {p : Pass ε}
    (h : p.Follows rb now released (item :: rest)) (hgood : p.Good rb now (item :: rest)) :
    ∃ released', (visit rb.timeout now p item).Follows rb now released' rest := by
  have hheld : item ∈ rb.heap := h.perm.mem_iff.mp (by simp)
  have hmoved : (released ++ [item] ++ (p.keep ++ rest)).Perm rb.heap := by
    rw [List.append_assoc, List.singleton_append]
    exact (List.perm_middle.symm.append_left released).trans h.perm
  have hrelease : item ∈ Processor.goes rb now →
      ∀ x ∈ released ++ [item], x ∈ Processor.goes rb now := by
    intro hitem x hx
    rcases List.mem_append.mp hx with hx | hx
    · exact h.goes x hx
    · exact List.mem_singleton.mp hx ▸ hitem
  unfold ReorderBuffer.visit
  split_ifs with hready htime
  · exact ⟨released ++ [item], by simp [h.out], hmoved, hrelease (h.goes_of_ready hgood hready)⟩
  · have hgoes : item ∈ Processor.goes rb now := by
      rw [Processor.goes, ← OrderHom.map_lfp]
      exact ⟨hheld, Or.inl htime⟩
    exact ⟨released ++ [item], by simp [h.out], hmoved, hrelease hgoes⟩
  · exact ⟨released, h.out, by simpa using h.perm, h.goes⟩

theorem Pass.Follows.foldl_visit (items : List (Item ε)) :
    ∀ {released : List (Item ε)} {p : Pass ε}, p.Follows rb now released items →
      p.Good rb now items →
      ∃ released', (items.foldl (ReorderBuffer.visit rb.timeout now) p).Follows rb now
        released' [] := by
  induction items with
  | nil => exact fun h _ => ⟨_, h⟩
  | cons item items ih =>
    intro released p h hgood
    obtain ⟨released', h'⟩ := h.visit hgood
    exact ih h' hgood.visit

theorem Pass.Follows.scan {released : List (Item ε)} {p : Pass ε}
    (h : p.Follows rb now released []) (hgood : p.Good rb now []) :
    ∃ released', (scan rb.timeout now p).Follows rb now released' [] := by
  have hstart : ({ p with keep := [], progressed := false } : Pass ε).Follows rb now released
      p.keep := ⟨h.out, by simpa using h.perm, h.goes⟩
  refine Pass.Follows.foldl_visit p.keep hstart ?_
  · exact
      { perm := by simpa using hgood.perm
        delivered := hgood.delivered
        forced := hgood.forced
        ready := hgood.ready
        stuck := fun _ _ hkept => absurd hkept List.not_mem_nil }

/-! ## The loop -/

/-- The test of the `while` loop. -/
def Pass.More (p : Pass ε) : Prop := p.progressed = true ∧ p.keep ≠ []

/-- The pass a pop starts from. -/
def ReorderBuffer.start (rb : ReorderBuffer ε) : Pass ε :=
  ⟨rb.delivered, rb.forced, [], rb.heap, true⟩

/-- **The loop terminates**: after some number of passes its test fails. -/
theorem settle_eq_iterate (timeout now : ℚ) (fuel : ℕ) :
    ∀ p : Pass ε, (p.progressed = true → p.keep.length < fuel) →
      ∃ n, (∀ m < n, ((scan timeout now)^[m] p).More) ∧ ¬ ((scan timeout now)^[n] p).More ∧
        settle timeout now fuel p = (scan timeout now)^[n] p := by
  induction fuel with
  | zero => exact fun p hfuel => ⟨0, by simp, fun h => Nat.not_lt_zero _ (hfuel h.1), rfl⟩
  | succ fuel ih =>
    intro p hfuel
    unfold settle
    split_ifs with hmore
    · obtain ⟨n, hturns, hend, heq⟩ := ih (scan timeout now p) fun hp => by
        have hshorter := scan_length timeout now hp
        have hleft := hfuel hmore.1
        omega
      refine ⟨n + 1, fun m hm => ?_, hend, heq⟩
      cases m with
      | zero => exact hmore
      | succ m => exact hturns m (by omega)
    · exact ⟨0, by simp, hmore, rfl⟩

theorem Pass.Follows.iterate (n : ℕ) :
    ∀ {released : List (Item ε)} {p : Pass ε}, p.Follows rb now released [] → p.Good rb now [] →
      ∃ released', ((ReorderBuffer.scan rb.timeout now)^[n] p).Follows rb now released' [] := by
  induction n with
  | zero => exact fun h _ => ⟨_, h⟩
  | succ n ih =>
    intro released p h hgood
    obtain ⟨released', h'⟩ := h.scan hgood
    exact ih h' hgood.scan

/-! ## The least set -/

/-- An event delivered is ready from then on. -/
theorem isReady_of_mem {events : List ε} {e : ε} (he : e ∈ events) (delivered : GoString → ℤ) :
    isReady (events.foldl deliver delivered) e = true := by
  refine List.all_eq_true.mpr fun q hq => ?_
  have hle := (isGreatest_foldl_deliver events delivered q.1).2
    (Set.mem_insert_of_mem _ ⟨e, he, hq⟩)
  simp only [Bool.not_eq_true', decide_eq_false_iff_not, not_lt]
  omega

/-- **Where nothing kept may go, what was released is closed**: the least
set is no larger. -/
theorem Pass.Follows.goes_subset {released : List (Item ε)} {p : Pass ε}
    (h : p.Follows rb now released []) (hgood : p.Good rb now [])
    (hstuck : ∀ item ∈ p.keep, Stuck rb.timeout now p.delivered item) :
    Processor.goes rb now ⊆ {item | item ∈ released} := by
  refine OrderHom.lfp_le _ ?_
  rintro item ⟨hheld, hmay⟩
  have hsplit : item ∈ released ∨ item ∈ p.keep := by
    simpa using h.perm.mem_iff.mpr hheld
  refine hsplit.resolve_right fun hkept => ?_
  obtain ⟨hwaits, hyoung⟩ := hstuck item hkept
  rcases hmay with htime | hready
  · exact hyoung htime
  · refine Bool.false_ne_true (hwaits.symm.trans (List.all_eq_true.mpr fun q hq => ?_))
    have htop := (isGreatest_foldl_deliver p.out rb.delivered q.1).2
    rw [← hgood.delivered] at htop
    simp only [Bool.not_eq_true', decide_eq_false_iff_not, not_lt]
    rcases hready q hq with hle | ⟨other, hother, v, hv, hle⟩
    · have := htop (Set.mem_insert _ _)
      omega
    · have hout : other.event ∈ p.out := h.out ▸ List.mem_map_of_mem hother
      have := htop (Set.mem_insert_of_mem _ ⟨_, hout, hv⟩)
      omega

/-- **What a pop releases is what goes**: the items released and those left
make up the heap, and the released ones are those of the least set. -/
theorem popReady_released (rb : ReorderBuffer ε) (now : ℚ) :
    ∃ released : List (Item ε), (rb.popReady now).2.Perm (released.map (·.event)) ∧
      (released ++ (rb.popReady now).1.heap).Perm rb.heap ∧
      (∀ item ∈ released, item ∈ goes rb now) ∧
      ∀ item ∈ (rb.popReady now).1.heap, item ∉ goes rb now := by
  have hgood : rb.start.Good rb now [] :=
    { perm := by simp [start]
      delivered := rfl
      forced := le_rfl
      ready := fun _ => trivial
      stuck := fun hp => absurd hp (by simp [start]) }
  have hfollows : rb.start.Follows rb now [] [] := ⟨rfl, by simp [start], by simp⟩
  have hfuel : rb.start.progressed = true → rb.start.keep.length < rb.heap.length + 1 :=
    fun _ => Nat.lt_succ_self _
  obtain ⟨n, -, -, heq⟩ := settle_eq_iterate rb.timeout now _ rb.start hfuel
  obtain ⟨released, hend⟩ := hfollows.iterate n hgood
  rw [← heq] at hend
  have hendGood := (hgood.settle rb now _ hfuel).1
  obtain ⟨-, -, -, hwater, -, -, hstuck⟩ := popReady_spec rb now
  have hkeep : ((rb.popReady now).1.heap).Perm (settle rb.timeout now (rb.heap.length + 1)
      rb.start).keep := Heapq.heapify_perm _
  have hstuck' := fun item hitem => hstuck item (hkeep.mem_iff.mpr hitem)
  refine ⟨released, ?_, ?_, hend.goes, fun item hitem hgoes => ?_⟩
  · rw [← hend.out]
    exact List.perm_insertionSort _ _
  · refine (hkeep.append_left released).trans ?_
    simpa using hend.perm
  · -- what goes was released, so it is ready, and what is kept is not
    have hreleased := hend.goes_subset hendGood hstuck' hgoes
    have hout : item.event ∈ (settle rb.timeout now (rb.heap.length + 1) rb.start).out :=
      hend.out ▸ List.mem_map_of_mem hreleased
    have hready := isReady_of_mem hout rb.delivered
    rw [← hendGood.delivered] at hready
    exact Bool.false_ne_true ((hstuck item hitem).1.symm.trans hready)

/-- What goes is the part of the heap in the least set, so its events are
the same in any order of the heap. -/
theorem popReady_perm (htimeout : rb'.timeout = rb.timeout) (hwater : rb'.delivered = rb.delivered)
    (hheap : rb'.heap.Perm rb.heap) (now : ℚ) :
    (rb'.popReady now).2.Perm (rb.popReady now).2 := by
  classical
  have hpart : ∀ {released kept heap : List (Item ε)} {s : Set (Item ε)},
      (released ++ kept).Perm heap → (∀ item ∈ released, item ∈ s) → (∀ item ∈ kept, item ∉ s) →
        released.Perm (heap.filter (· ∈ s)) := by
    intro released kept heap s hperm hin hnot
    have hfilter := hperm.filter (· ∈ s)
    rw [List.filter_append, List.filter_eq_self.mpr (by simpa using hin),
      List.filter_eq_nil_iff.mpr (by simpa using hnot), List.append_nil] at hfilter
    exact hfilter
  obtain ⟨released, hout, hperm, hin, hnot⟩ := popReady_released rb now
  obtain ⟨released', hout', hperm', hin', hnot'⟩ := popReady_released rb' now
  rw [goes_congr htimeout hwater hheap] at hin' hnot'
  have hsame := (hpart (hperm'.trans hheap) hin' hnot').trans (hpart hperm hin hnot).symm
  exact hout'.trans ((hsame.map (·.event)).trans hout.symm)

/-- **`pop_ready` computes a fixpoint, and loses nothing.** For every state
of the buffer and any time: the loop ends; what is returned and what is left
are what was held; nothing left is ready or held for the timeout; the
watermark is the maximum of where it was and the components returned; the
list is sorted by the sums, so no event is before one its clock strictly
dominates; what is released is the least set of what may go, and the same
in every order of the heap. -/
theorem popReady_fixpoint (rb : ReorderBuffer ε) (now : ℚ) :
    (∃ n, (∀ m < n, ((scan rb.timeout now)^[m] rb.start).More) ∧
      ¬ ((scan rb.timeout now)^[n] rb.start).More ∧
      (rb.popReady now).2 = ((scan rb.timeout now)^[n] rb.start).out.insertionSort
        fun a b => vcSum a ≤ vcSum b) ∧
    ((rb.popReady now).2 ++ (rb.popReady now).1.events).Perm rb.events ∧
    (∀ item ∈ (rb.popReady now).1.heap,
      isReady (rb.popReady now).1.delivered item.event = false ∧
        ¬ rb.timeout ≤ now - item.arrival) ∧
    (∀ node, IsGreatest
      (insert (rb.delivered node) {v | ∃ e ∈ (rb.popReady now).2, (node, v) ∈ clockItems e})
      ((rb.popReady now).1.delivered node)) ∧
    (rb.popReady now).2.Pairwise (fun a b => vcSum a ≤ vcSum b ∧ ¬ Precedes b a) ∧
    (∃ released : List (Item ε), (rb.popReady now).2.Perm (released.map (·.event)) ∧
      (released ++ (rb.popReady now).1.heap).Perm rb.heap ∧
      (∀ item ∈ released, item ∈ goes rb now) ∧
      ∀ item ∈ (rb.popReady now).1.heap, item ∉ goes rb now) ∧
    ∀ rb' : ReorderBuffer ε, rb'.timeout = rb.timeout → rb'.delivered = rb.delivered →
      rb'.heap.Perm rb.heap → (rb'.popReady now).2.Perm (rb.popReady now).2 := by
  obtain ⟨order, horder, hperm, hwater, -, -, hstuck⟩ := popReady_spec rb now
  refine ⟨?_, hperm, hstuck, fun node => ?_, ?_, popReady_released rb now, fun rb' ht hw hh =>
    popReady_perm ht hw hh now⟩
  · obtain ⟨n, hturns, hend, heq⟩ := settle_eq_iterate rb.timeout now (rb.heap.length + 1) rb.start
      fun _ => Nat.lt_succ_self _
    exact ⟨n, hturns, hend, by rw [← heq]; rfl⟩
  · rw [hwater]
    have hmem : ∀ e, e ∈ (rb.popReady now).2 ↔ e ∈ order := fun e => horder.mem_iff
    simp only [hmem]
    exact isGreatest_foldl_deliver order rb.delivered node
  · exact (popReady_sorted rb now).imp fun hle => ⟨hle, fun h => absurd h.vcSum_lt (not_lt.mpr hle)⟩

end Processor

end TftAnalytics

import TftAnalytics.Processor.Helpers.Reorder
import TftAnalytics.Processor.Model.Calls
/-!
# Processor — a number that is never pushed

Helper layer. Where no event pushed has some number at a node, the
watermark of the node stays below it, and nothing above it is ready. What
is above it comes out of the buffer only after something above it was held
for the whole timeout.
-/

namespace TftAnalytics

namespace Processor

variable {ε : Type} [HasClock ε] {node : GoString} {gap : ℤ} {timeout now : ℚ}

/-- Items that leave the gap: none is at it, and none above it has been held
for the timeout. -/
def Leaves (node : GoString) (gap : ℤ) (timeout now : ℚ) (heap : List (Item ε)) : Prop :=
  ∀ item ∈ heap, seqOf item.event node ≠ gap ∧
    (gap < seqOf item.event node → ¬ timeout ≤ now - item.arrival)

/-- Nothing at or above the gap is released, and what is kept was held. -/
structure Pass.Below (node : GoString) (gap : ℤ) (heap : List (Item ε)) (p : Pass ε) : Prop where
  delivered : p.delivered node < gap
  out : ∀ e ∈ p.out, seqOf e node < gap
  keep : p.keep ⊆ heap

/-- What is ready below a gap is below it, or at it. -/
theorem seqOf_le_of_isReady (hpos : 0 < gap) {delivered : GoString → ℤ}
    (hbelow : delivered node < gap) {e : ε} (hready : isReady delivered e = true) :
    seqOf e node ≤ gap := by
  rcases mem_clockItems_or e node with hmem | hzero
  · have hitem := List.all_eq_true.mp hready _ hmem
    simp only [Bool.not_eq_true', decide_eq_false_iff_not] at hitem
    omega
  · omega

theorem deliver_lt {delivered : GoString → ℤ} (hbelow : delivered node < gap) {e : ε}
    (he : seqOf e node < gap) : deliver delivered e node < gap := by
  rcases deliver_eq delivered e node with heq | heq <;> rwa [heq]

open ReorderBuffer

variable {heap : List (Item ε)}

theorem Pass.Below.visit (hpos : 0 < gap) (hheap : Leaves node gap timeout now heap) {p : Pass ε}
    (h : p.Below node gap heap) {item : Item ε} (hitem : item ∈ heap) :
    (visit timeout now p item).Below node gap heap := by
  obtain ⟨hne, hheld⟩ := hheap item hitem
  have hrelease : seqOf item.event node < gap →
      deliver p.delivered item.event node < gap ∧
        ∀ e ∈ p.out ++ [item.event], seqOf e node < gap := fun hlt =>
    ⟨deliver_lt h.delivered hlt, List.forall_mem_append.mpr ⟨h.out, by simpa using hlt⟩⟩
  unfold ReorderBuffer.visit
  split_ifs with hready htime
  · -- ready, so not above the gap
    have hlt := lt_of_le_of_ne (seqOf_le_of_isReady hpos h.delivered hready) hne
    exact ⟨(hrelease hlt).1, (hrelease hlt).2, h.keep⟩
  · -- forced out, so not above the gap either
    have hlt : seqOf item.event node < gap := by
      rcases lt_or_gt_of_ne hne with hlt | hlate
      · exact hlt
      · exact absurd htime (hheld hlate)
    exact ⟨(hrelease hlt).1, (hrelease hlt).2, h.keep⟩
  · exact ⟨h.delivered, h.out,
      List.append_subset.mpr ⟨h.keep, List.cons_subset.mpr ⟨hitem, List.nil_subset _⟩⟩⟩

theorem Pass.Below.foldl_visit (hpos : 0 < gap) (hheap : Leaves node gap timeout now heap)
    (items : List (Item ε)) :
    ∀ {p : Pass ε}, p.Below node gap heap → items ⊆ heap →
      (items.foldl (ReorderBuffer.visit timeout now) p).Below node gap heap := by
  induction items with
  | nil => exact fun h _ => h
  | cons item items ih =>
    intro p h hitems
    obtain ⟨hitem, hitems⟩ := List.cons_subset.mp hitems
    exact ih (h.visit hpos hheap hitem) hitems

theorem Pass.Below.scan (hpos : 0 < gap) (hheap : Leaves node gap timeout now heap) {p : Pass ε}
    (h : p.Below node gap heap) : (scan timeout now p).Below node gap heap :=
  Pass.Below.foldl_visit hpos hheap p.keep ⟨h.delivered, h.out, List.nil_subset _⟩ h.keep

theorem Pass.Below.settle (hpos : 0 < gap) (hheap : Leaves node gap timeout now heap) (fuel : ℕ) :
    ∀ {p : Pass ε}, p.Below node gap heap → (settle timeout now fuel p).Below node gap heap := by
  induction fuel with
  | zero => exact fun h => h
  | succ fuel ih =>
    intro p h
    unfold ReorderBuffer.settle
    split_ifs
    · exact ih (h.scan hpos hheap)
    · exact h

/-- **A pop below a gap** keeps the watermark there and releases nothing
above, where nothing above was held for the timeout. -/
theorem popReady_below (hpos : 0 < gap) {rb : ReorderBuffer ε} (hbelow : rb.delivered node < gap)
    (hheap : Leaves node gap rb.timeout now rb.heap) :
    (rb.popReady now).1.delivered node < gap ∧ (∀ e ∈ (rb.popReady now).2, seqOf e node < gap) ∧
      (rb.popReady now).1.heap ⊆ rb.heap := by
  have hstart : Pass.Below node gap rb.heap ⟨rb.delivered, rb.forced, [], rb.heap, true⟩ :=
    ⟨hbelow, fun _ he => absurd he List.not_mem_nil, List.Subset.refl _⟩
  have hend := hstart.settle hpos hheap (rb.heap.length + 1)
  exact ⟨hend.delivered, fun e he => hend.out e ((List.perm_insertionSort _ _).mem_iff.mp he),
    fun item hitem => hend.keep ((Heapq.heapify_perm _).mem_iff.mp hitem)⟩

/-! ## Calls -/

/-- Something above the gap has been pushed, and held for the timeout. -/
def Waited (node : GoString) (gap : ℤ) (timeout : ℚ) (calls : List (Call ε)) : Prop :=
  ∃ before e t mid now rest, calls = before ++ .push e t :: (mid ++ .popReady now :: rest) ∧
    gap < seqOf e node ∧ timeout ≤ now - t

/-- **Until then**: nothing above the gap comes out, and what is held was
pushed when the buffer says. -/
structure Usage.Below (node : GoString) (gap : ℤ) (timeout : ℚ) (calls : List (Call ε))
    (u : Usage ε) : Prop where
  timeout : u.buffer.timeout = timeout
  watermark : u.buffer.delivered node < gap
  delivered : ∀ x ∈ u.delivered, seqOf x node < gap
  held : ∀ item ∈ u.buffer.heap, ∃ before mid,
    calls = before ++ .push item.event.event item.arrival :: mid

theorem Waited.append {calls : List (Call ε)} (h : Waited node gap timeout calls)
    (more : List (Call ε)) : Waited node gap timeout (calls ++ more) := by
  obtain ⟨before, e, t, mid, now, rest, rfl, hlate, htime⟩ := h
  exact ⟨before, e, t, mid, now, rest ++ more, by simp, hlate, htime⟩

variable {calls : List (Call ε)} {u : Usage ε}

theorem Usage.Below.push (h : u.Below node gap timeout calls) (e : ε) (t : ℚ) :
    (u.step (.push e t)).Below node gap timeout (calls ++ [.push e t]) := by
  refine ⟨h.timeout, h.watermark, h.delivered, fun item hitem => ?_⟩
  rcases List.mem_cons.mp ((Heapq.heappush_perm _ _).mem_iff.mp hitem) with rfl | hitem
  · exact ⟨calls, [], rfl⟩
  · obtain ⟨before, mid, rfl⟩ := h.held item hitem
    exact ⟨before, mid ++ [.push e t], by simp⟩

theorem Usage.Below.popReady (hpos : 0 < gap) (h : u.Below node gap timeout calls)
    (hgap : ∀ e ∈ pushes calls, seqOf e node ≠ gap) (now : ℚ) :
    Waited node gap timeout (calls ++ [.popReady now]) ∨
      (u.step (.popReady now)).Below node gap timeout (calls ++ [.popReady now]) := by
  by_cases hheap : Leaves node gap u.buffer.timeout now u.buffer.heap
  · obtain ⟨hwater, hout, hkept⟩ := popReady_below hpos h.watermark hheap
    refine Or.inr ⟨h.timeout, hwater, List.forall_mem_append.mpr ⟨h.delivered, hout⟩,
      fun item hitem => ?_⟩
    obtain ⟨before, mid, rfl⟩ := h.held item (hkept hitem)
    exact ⟨before, mid ++ [.popReady now], by simp⟩
  · -- an item above the gap was held for the timeout
    unfold Leaves at hheap
    push Not at hheap
    obtain ⟨item, hitem, hlate⟩ := hheap
    obtain ⟨before, mid, rfl⟩ := h.held item hitem
    obtain ⟨hlate, htime⟩ := hlate (hgap item.event.event (by simp [pushes]))
    exact Or.inl ⟨before, item.event.event, item.arrival, mid, now, [], by simp, hlate,
      h.timeout ▸ htime⟩

/-- **A gap holds for the timeout**, in any sequence of calls. -/
theorem below_run (hpos : 0 < gap) (timeout : ℚ) (calls : List (Call ε))
    (hgap : ∀ e ∈ pushes calls, seqOf e node ≠ gap) :
    Waited node gap timeout calls ∨ (Usage.run timeout calls).Below node gap timeout calls := by
  induction calls using List.reverseRecOn with
  | nil =>
    exact Or.inr ⟨rfl, hpos, fun _ h => absurd h List.not_mem_nil,
      fun _ h => absurd h List.not_mem_nil⟩
  | append_singleton calls call ih =>
    unfold Usage.run at ih ⊢
    rw [List.foldl_append]
    have hbefore : ∀ e ∈ pushes calls, seqOf e node ≠ gap := fun e he =>
      hgap e (by rw [pushes, List.filterMap_append]; exact List.mem_append_left _ he)
    rcases ih hbefore with hwaited | hbelow
    · exact Or.inl (hwaited.append _)
    · cases call with
      | push e t => exact Or.inr (hbelow.push e t)
      | popReady now => exact hbelow.popReady hpos hbefore now

end Processor

end TftAnalytics

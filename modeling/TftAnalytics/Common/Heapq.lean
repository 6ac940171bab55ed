import Mathlib.Data.List.Basic
/-!
# Common — binary heaps in lists

`heappush` and `heapify` of Python's `heapq`, over an arbitrary order test,
with the element that sinks or rises swapped along its path. Both permute
what they are given; which order they leave it in is the heap's affair.
-/

namespace TftAnalytics

namespace Heapq

variable {α : Type} (lt : α → α → Bool)

/-- `heap[i], heap[j] = heap[j], heap[i]`. -/
def swap (heap : List α) (i j : ℕ) : List α :=
  match heap[i]?, heap[j]? with
  | some x, some y => (heap.set i y).set j x
  | _, _ => heap

/-- `heap[i] < heap[j]`. -/
def ltAt (heap : List α) (i j : ℕ) : Bool :=
  match heap[i]?, heap[j]? with
  | some x, some y => lt x y
  | _, _ => false

/-- `_siftdown`: the element at a position rises past its larger parents. -/
def siftdown (startpos : ℕ) : ℕ → ℕ → List α → List α
  | 0, _, heap => heap
  | fuel + 1, pos, heap =>
    let parentpos := (pos - 1) / 2
    if startpos < pos ∧ ltAt lt heap pos parentpos then
      siftdown startpos fuel parentpos (swap heap pos parentpos)
    else heap

/-- The loop of `_siftup`: the element at a position sinks to a leaf, its
smaller child rising each time. The result is the leaf and the list. -/
def sink : ℕ → ℕ → List α → ℕ × List α
  | 0, pos, heap => (pos, heap)
  | fuel + 1, pos, heap =>
    let childpos := 2 * pos + 1
    if childpos < heap.length then
      let rightpos := childpos + 1
      let childpos :=
        if rightpos < heap.length ∧ ltAt lt heap childpos rightpos = false then rightpos
        else childpos
      sink fuel childpos (swap heap pos childpos)
    else (pos, heap)

/-- `_siftup`: to a leaf, and from there back up. -/
def siftup (heap : List α) (pos : ℕ) : List α :=
  let (leaf, heap) := sink lt heap.length pos heap
  siftdown lt pos leaf leaf heap

/-- `heappush`. -/
def heappush (heap : List α) (item : α) : List α :=
  siftdown lt 0 heap.length heap.length (heap ++ [item])

/-- `heapify`: every parent, from the last to the first. -/
def heapify (heap : List α) : List α :=
  (List.range (heap.length / 2)).reverse.foldl (siftup lt) heap

variable {lt}

theorem swap_perm (heap : List α) (i j : ℕ) : (swap heap i j).Perm heap := by
  unfold swap
  split
  · rename_i x y hx hy
    obtain ⟨hi, rfl⟩ := List.getElem?_eq_some_iff.mp hx
    obtain ⟨hj, rfl⟩ := List.getElem?_eq_some_iff.mp hy
    exact List.set_set_perm hi hj
  · exact List.Perm.refl heap

theorem siftdown_perm (startpos fuel : ℕ) :
    ∀ (pos : ℕ) (heap : List α), (siftdown lt startpos fuel pos heap).Perm heap := by
  induction fuel with
  | zero => exact fun _ heap => List.Perm.refl heap
  | succ fuel ih =>
    intro pos heap
    rw [siftdown]
    split_ifs
    · exact (ih _ _).trans (swap_perm heap _ _)
    · exact List.Perm.refl heap

theorem sink_perm (fuel : ℕ) :
    ∀ (pos : ℕ) (heap : List α), (sink lt fuel pos heap).2.Perm heap := by
  induction fuel with
  | zero => exact fun _ heap => List.Perm.refl heap
  | succ fuel ih =>
    intro pos heap
    rw [sink]
    split_ifs
    · exact (ih _ _).trans (swap_perm heap _ _)
    · exact List.Perm.refl heap

theorem siftup_perm (heap : List α) (pos : ℕ) : (siftup lt heap pos).Perm heap :=
  (siftdown_perm _ _ _ _).trans (sink_perm _ _ _)

/-- **A push adds its item.** -/
theorem heappush_perm (heap : List α) (item : α) :
    (heappush lt heap item).Perm (item :: heap) :=
  (siftdown_perm _ _ _ _).trans (List.perm_append_singleton item heap)

/-- **`heapify` rearranges.** -/
theorem heapify_perm (heap : List α) : (heapify lt heap).Perm heap := by
  suffices h : ∀ (positions : List ℕ) (l : List α), l.Perm heap →
      (positions.foldl (siftup lt) l).Perm heap from h _ heap (List.Perm.refl heap)
  intro positions
  induction positions with
  | nil => exact fun _ hl => hl
  | cons pos positions ih => exact fun l hl => ih _ ((siftup_perm l pos).trans hl)

end Heapq

end TftAnalytics

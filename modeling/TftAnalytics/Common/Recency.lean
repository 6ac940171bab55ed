import Mathlib.Data.List.Nodup
import Mathlib.Data.List.Induction
/-!
# Common — the least recently used list

What a cache of bounded size keeps: its keys, the most recently used
first. A hit or an update moves its key to the front, a new key comes in
front, and what then exceeds the bound goes from the end. The value of a
key is the one of its last put, which the history gives.
-/

namespace TftAnalytics

namespace Recency

/-- An operation on a cache. -/
inductive Op (α β : Type) where
  | get (key : α)
  | put (key : α) (value : β)
  | remove (key : α)

variable {α β : Type} [DecidableEq α]

/-- The keys, with one of them moved to the front. -/
def touch (keys : List α) (key : α) : List α := key :: keys.filter (· ≠ key)

/-- The keys after an operation, `n` of them at most. -/
def step (n : ℕ) (keys : List α) : Op α β → List α
  | .get key => if key ∈ keys then touch keys key else keys
  | .put key _ => if key ∈ keys then touch keys key else (key :: keys).take n
  | .remove key => keys.filter (· ≠ key)

/-- The keys after a sequence of operations on an empty cache. -/
def keys (n : ℕ) (ops : List (Op α β)) : List α := ops.foldl (step n) []

/-- The value an operation puts for a key. -/
def Op.putFor (key : α) : Op α β → Option β
  | .put key' value => if key' = key then some value else none
  | _ => none

/-- The value of the last put of a key. -/
def lastPut (ops : List (Op α β)) (key : α) : Option β := ops.reverse.findSome? (Op.putFor key)

theorem lastPut_concat (ops : List (Op α β)) (op : Op α β) (key : α) :
    lastPut (ops ++ [op]) key = (op.putFor key).or (lastPut ops key) := by
  unfold lastPut
  rw [List.reverse_concat, List.findSome?_cons]
  cases op.putFor key <;> rfl

theorem keys_concat (n : ℕ) (ops : List (Op α β)) (op : Op α β) :
    keys n (ops ++ [op]) = step n (keys n ops) op := List.foldl_concat ..

theorem nodup_touch {keys : List α} (h : keys.Nodup) (key : α) : (touch keys key).Nodup := by
  refine List.nodup_cons.mpr ⟨fun hmem => ?_, h.filter _⟩
  simp at hmem

theorem length_touch_le {keys : List α} {key : α} (hmem : key ∈ keys) :
    (touch keys key).length ≤ keys.length := by
  have hlt : (keys.filter (· ≠ key)).length < keys.length :=
    List.length_filter_lt_length_iff_exists.mpr ⟨key, hmem, by simp⟩
  rw [touch, List.length_cons]
  omega

theorem nodup_step {keys : List α} (h : keys.Nodup) (n : ℕ) (op : Op α β) :
    (step n keys op).Nodup := by
  rcases op with key | ⟨key, value⟩ | key
  · simp only [step]
    split_ifs
    · exact nodup_touch h key
    · exact h
  · simp only [step]
    split_ifs with hmem
    · exact nodup_touch h key
    · exact (List.nodup_cons.mpr ⟨hmem, h⟩).sublist (List.take_sublist _ _)
  · exact h.filter _

theorem length_step_le {n : ℕ} {keys : List α} (h : keys.length ≤ n) (op : Op α β) :
    (step n keys op).length ≤ n := by
  rcases op with key | ⟨key, value⟩ | key
  · simp only [step]
    split_ifs with hmem
    · exact Nat.le_trans (length_touch_le hmem) h
    · exact h
  · simp only [step]
    split_ifs with hmem
    · exact Nat.le_trans (length_touch_le hmem) h
    · exact List.length_take_le n _
  · exact Nat.le_trans (List.length_filter_le _ _) h

/-- **Each key is kept once, and no more than `n` of them**, whatever the
operations. -/
theorem nodup_keys (n : ℕ) (ops : List (Op α β)) : (keys n ops).Nodup := by
  induction ops using List.reverseRecOn with
  | nil => exact List.nodup_nil
  | append_singleton ops op ih =>
    rw [keys_concat]
    exact nodup_step ih n op

theorem length_keys_le (n : ℕ) (ops : List (Op α β)) : (keys n ops).length ≤ n := by
  induction ops using List.reverseRecOn with
  | nil => exact Nat.zero_le n
  | append_singleton ops op ih =>
    rw [keys_concat]
    exact length_step_le ih op

end Recency

end TftAnalytics

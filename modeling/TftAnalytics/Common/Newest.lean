import Mathlib.Data.List.Basic
import Mathlib.Order.Lattice
/-!
# Common — the newest of a stream

A bounded list that is pushed in front holds the newest of what was pushed
as long as each item is newer than all before it, and no longer.
-/

namespace TftAnalytics

variable {α ι : Type} [LinearOrder ι]

/-- `l` holds the items of `xs` with the highest keys, `n` at most, the
highest first and each once. -/
structure Newest (n : ℕ) (key : α → ι) (xs l : List α) : Prop where
  descending : l.Pairwise fun a b => key b < key a
  length_le : l.length ≤ n
  subset : ∀ a ∈ l, a ∈ xs
  complete : ∀ a ∈ xs, a ∈ l ∨ l.length = n ∧ ∀ b ∈ l, key a < key b

namespace Newest

variable {n : ℕ} {key : α → ι} {xs l : List α}

theorem nil : Newest n key ([] : List α) [] where
  descending := List.Pairwise.nil
  length_le := Nat.zero_le n
  subset := fun _ h => h
  complete := fun _ h => absurd h List.not_mem_nil

/-- **A newer item** comes in front, and the oldest goes. -/
theorem push (h : Newest n key xs l) (hn : 0 < n) {a : α} (hnew : ∀ b ∈ xs, key b < key a) :
    Newest n key (xs ++ [a]) ((a :: l).take n) := by
  obtain ⟨k, rfl⟩ := Nat.exists_eq_succ_of_ne_zero (Nat.ne_of_gt hn)
  rw [List.take_succ_cons]
  refine ⟨?_, ?_, ?_, ?_⟩
  · refine List.pairwise_cons.mpr ⟨fun b hb => ?_, h.descending.sublist (List.take_sublist _ _)⟩
    exact hnew b (h.subset b (List.mem_of_mem_take hb))
  · rw [List.length_cons, List.length_take]
    omega
  · intro b hb
    rcases List.mem_cons.mp hb with rfl | hb
    · simp
    · exact List.mem_append_left _ (h.subset b (List.mem_of_mem_take hb))
  · intro b hb
    rcases List.mem_append.mp hb with hb | hb
    · have hlt : key b < key a := hnew b hb
      rcases h.complete b hb with hmem | ⟨hfull, hlow⟩
      · -- what is in the list stays, or is the oldest of a full one
        rw [← List.take_append_drop k l] at hmem
        rcases List.mem_append.mp hmem with hmem | hmem
        · exact Or.inl (List.mem_cons_of_mem a hmem)
        · have hlen : 0 < (l.drop k).length := List.length_pos_of_mem hmem
          rw [List.length_drop] at hlen
          have hle := h.length_le
          refine Or.inr ⟨?_, fun c hc => ?_⟩
          · rw [List.length_cons, List.length_take]
            omega
          · rcases List.mem_cons.mp hc with rfl | hc
            · exact hlt
            · have hsplit := h.descending
              rw [← List.take_append_drop k l, List.pairwise_append] at hsplit
              exact hsplit.2.2 c hc b hmem
      · refine Or.inr ⟨?_, fun c hc => ?_⟩
        · rw [List.length_cons, List.length_take]
          omega
        · rcases List.mem_cons.mp hc with rfl | hc
          · exact hlt
          · exact hlow c (List.mem_of_mem_take hc)
    · obtain rfl := List.mem_singleton.mp hb
      exact Or.inl List.mem_cons_self

/-- **An item that is not newer** spoils the list. -/
theorem not_push (h : Newest n key xs l) (hn : 2 ≤ n) {a b : α} (hb : b ∈ xs)
    (hle : key a ≤ key b) : ¬ Newest n key (xs ++ [a]) ((a :: l).take n) := by
  obtain ⟨k, rfl⟩ := Nat.exists_eq_add_of_le' hn
  rcases l with _ | ⟨c, l⟩
  · rcases h.complete b hb with hmem | ⟨hfull, -⟩
    · cases hmem
    · simp at hfull
  · have hbc : key b ≤ key c := by
      rcases h.complete b hb with hmem | ⟨-, hlow⟩
      · rcases List.mem_cons.mp hmem with rfl | hmem
        · exact le_rfl
        · exact ((List.pairwise_cons.mp h.descending).1 b hmem).le
      · exact (hlow c List.mem_cons_self).le
    intro hpush
    have hca : key c < key a := (List.pairwise_cons.mp hpush.descending).1 c (by simp)
    exact absurd (hle.trans hbc) (not_le.mpr hca)

end Newest

end TftAnalytics

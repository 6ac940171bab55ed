import Mathlib.Data.List.Basic
import Mathlib.Data.List.Nodup
/-!
# Common — lists by a key

A list whose elements come in the order of their keys is the concatenation
of its buckets, one for each key, empty ones included. In a list whose keys
are distinct, an element is what is found under its key.
-/

namespace TftAnalytics

variable {α κ : Type} [DecidableEq κ]

/-- Of elements with distinct keys, the one found under a key. -/
theorem find?_of_nodup_map {key : α → κ} {l : List α} (hnodup : (l.map key).Nodup) {k : κ}
    {a : α} : l.find? (fun b => key b = k) = some a ↔ a ∈ l ∧ key a = k := by
  constructor
  · intro h
    exact ⟨List.mem_of_find?_eq_some h, by simpa using List.find?_some h⟩
  · rintro ⟨ha, rfl⟩
    obtain ⟨b, hb⟩ : ∃ b, l.find? (fun b => key b = key a) = some b :=
      Option.isSome_iff_exists.mp (List.find?_isSome.mpr ⟨a, ha, by simp⟩)
    have hkey : key b = key a := by simpa using List.find?_some hb
    rw [hb, List.inj_on_of_nodup_map hnodup (List.mem_of_find?_eq_some hb) ha hkey]

theorem flatMap_filter_eq_nil {key : α → κ} {cs : List κ} {l : List α}
    (h : ∀ c ∈ cs, ∀ a ∈ l, key a ≠ c) : cs.flatMap (fun c => l.filter fun a => key a = c) = [] :=
  List.flatMap_eq_nil_iff.mpr fun c hc =>
    List.filter_eq_nil_iff.mpr fun a ha => by simpa using h c hc a ha

/-- **Buckets one after another** are the list, if it is in their order. -/
theorem flatMap_filter_of_sorted (key : α → κ) {cs : List κ} (hcs : cs.Nodup) {l : List α}
    (hl : l.Pairwise fun a b => cs.idxOf (key a) ≤ cs.idxOf (key b))
    (hmem : ∀ a ∈ l, key a ∈ cs) : cs.flatMap (fun c => l.filter fun a => key a = c) = l := by
  induction l with
  | nil => exact flatMap_filter_eq_nil fun _ _ a ha => absurd ha List.not_mem_nil
  | cons a l ih =>
    obtain ⟨hfirst, hrest⟩ := List.pairwise_cons.mp hl
    have ih := ih hrest fun b hb => hmem b (List.mem_cons_of_mem a hb)
    obtain ⟨pre, post, hsplit⟩ := List.append_of_mem (hmem a List.mem_cons_self)
    rw [hsplit] at hcs hfirst
    rw [hsplit, List.flatMap_append, List.flatMap_cons] at ih ⊢
    rw [List.nodup_append] at hcs
    obtain ⟨-, hself, hpre⟩ := hcs
    have hidx : (pre ++ key a :: post).idxOf (key a) = pre.length := by
      have hnot : key a ∉ pre := fun h => hpre _ h _ List.mem_cons_self rfl
      rw [List.idxOf_append_of_notMem hnot, List.idxOf_cons_self, Nat.add_zero]
    -- what comes after the first element is in no earlier bucket
    have hearlier : ∀ c ∈ pre, ∀ b ∈ l, key b ≠ c := by
      rintro c hc b hb rfl
      have hle := hfirst b hb
      rw [hidx, List.idxOf_append_of_mem hc] at hle
      exact absurd (List.idxOf_lt_length_of_mem hc) (Nat.not_lt.mpr hle)
    have hlater : post.flatMap (fun c => (a :: l).filter fun b => key b = c)
        = post.flatMap fun c => l.filter fun b => key b = c := by
      refine List.flatMap_congr fun c hc => ?_
      have hne : key a ≠ c := fun h => (List.nodup_cons.mp hself).1 (h ▸ hc)
      rw [List.filter_cons_of_neg (by simpa using hne)]
    have hnone : pre.flatMap (fun c => (a :: l).filter fun b => key b = c) = [] := by
      refine flatMap_filter_eq_nil fun c hc b hb => ?_
      rcases List.mem_cons.mp hb with rfl | hb
      · exact fun h => hpre c hc _ List.mem_cons_self h.symm
      · exact hearlier c hc b hb
    rw [flatMap_filter_eq_nil hearlier, List.nil_append] at ih
    rw [hnone, hlater, List.filter_cons_of_pos (by simp), List.nil_append, List.cons_append, ih]

end TftAnalytics

import Mathlib.Data.List.Basic
/-!
# Positions — the entries of a log

A log grows at its end, so what is at a position stays there, and so does
what lies between two positions.
-/

namespace TftAnalytics

variable {α : Type*} {P : α → Prop} {l l' : List α} {x : α} {i j k : ℕ}

/-- Between two positions every entry is of a kind. -/
def Between (P : α → Prop) (l : List α) (i j : ℕ) : Prop :=
  ∀ k x, i < k → k < j → l[k]? = some x → P x

theorem lt_of_getElem?_eq_some (h : l[k]? = some x) : k < l.length :=
  (List.getElem?_eq_some_iff.mp h).1

/-- What is at a position stays there. -/
theorem getElem?_append_of_eq_some (h : l[k]? = some x) (l' : List α) :
    (l ++ l')[k]? = some x := by
  rw [List.getElem?_append_left (lt_of_getElem?_eq_some h)]
  exact h

/-- An entry is an old one, or a new one behind them. -/
theorem getElem?_append_cases (h : (l ++ l')[k]? = some x) :
    l[k]? = some x ∨ l.length ≤ k ∧ l'[k - l.length]? = some x := by
  rcases Nat.lt_or_ge k l.length with hlt | hge
  · rw [List.getElem?_append_left hlt] at h
    exact .inl h
  · rw [List.getElem?_append_right hge] at h
    exact .inr ⟨hge, h⟩

/-- **Between old positions nothing changes.** -/
theorem between_append (hj : j ≤ l.length) : Between P (l ++ l') i j ↔ Between P l i j := by
  constructor
  · intro h k x hik hkj hk
    exact h k x hik hkj (getElem?_append_of_eq_some hk l')
  · intro h k x hik hkj hk
    rcases getElem?_append_cases hk with hold | ⟨hge, -⟩
    · exact h k x hik hkj hold
    · omega

/-- Up to the end, the new entries count too. -/
theorem Between.append (h : Between P l i l.length) (hnew : ∀ x ∈ l', P x) :
    Between P (l ++ l') i (l ++ l').length := by
  intro k x hik _ hk
  rcases getElem?_append_cases hk with hold | ⟨-, hnew'⟩
  · exact h k x hik (lt_of_getElem?_eq_some hold) hold
  · exact hnew x (List.mem_of_getElem? hnew')

end TftAnalytics

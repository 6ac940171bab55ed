import Mathlib.Data.List.Basic
/-!
# Common — dictionaries in insertion order

A Python dictionary as the list of its items, in the order in which the
keys were first set.
-/

namespace TftAnalytics

/-- A change of the value under a key of a dictionary, which is added at
the end where it is missing. -/
def upsert {κ α : Type} [DecidableEq κ] (fresh : α) (f : α → α) (key : κ) :
    List (κ × α) → List (κ × α)
  | [] => [(key, f fresh)]
  | (k, x) :: dict => if k = key then (k, f x) :: dict else (k, x) :: upsert fresh f key dict

/-- What a `defaultdict` holds under a key. -/
def held {κ α : Type} [DecidableEq κ] (fresh : α) (dict : List (κ × α)) (key : κ) : α :=
  (dict.lookup key).getD fresh

/-- A key that is missing comes in at the end. -/
theorem keys_upsert {κ α : Type} [DecidableEq κ] (fresh : α) (f : α → α) (key : κ)
    (dict : List (κ × α)) : (upsert fresh f key dict).map Prod.fst
      = if key ∈ dict.map Prod.fst then dict.map Prod.fst else dict.map Prod.fst ++ [key] := by
  induction dict with
  | nil => rfl
  | cons p dict ih =>
    obtain ⟨k, x⟩ := p
    rw [upsert]
    by_cases hk : k = key
    · simp [hk]
    · rw [if_neg hk, List.map_cons, ih]
      by_cases hmem : key ∈ dict.map Prod.fst
      · simp [hmem]
      · simp [hmem, Ne.symm hk]

end TftAnalytics

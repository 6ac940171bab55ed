import TftAnalytics.Broker.Model.Naming
/-!
# Broker — taking a partition key apart

The last two underscores of a key are the separators where region and tier
have none of their own, whatever the topic is (`splitKey_partitionKey`).
Put together again, the parts of any key make that key or a longer one
(`rejoin_cases`): an empty region or tier comes back as `ALL`.
-/

namespace TftAnalytics

namespace Broker

/-! ## The last separator -/

theorem lastIndex_eq_none {c : UInt8} {s : GoString} : lastIndex c s = none ↔ c ∉ s := by
  induction s with
  | nil => simp [lastIndex]
  | cons x s ih =>
    rw [lastIndex]
    cases h : lastIndex c s with
    | some i =>
      have hmem : c ∈ s := by
        by_contra hnot
        rw [ih.mpr hnot] at h
        cases h
      simp [hmem]
    | none => simp [ih.mp h, eq_comm (a := c)]

/-- **The last separator** is the one with no other behind it. -/
theorem lastIndex_append {c : UInt8} (s : GoString) {t : GoString} (ht : c ∉ t) :
    lastIndex c (s ++ [c] ++ t) = some s.length := by
  induction s with
  | nil => simp [lastIndex, lastIndex_eq_none.mpr ht]
  | cons x s ih => simp only [List.cons_append, lastIndex, ih, List.length_cons]

/-- A string at its last separator. -/
theorem eq_of_lastIndex {c : UInt8} {s : GoString} {i : ℕ} (h : lastIndex c s = some i) :
    s = s.take i ++ [c] ++ s.drop (i + 1) ∧ c ∉ s.drop (i + 1) := by
  induction s generalizing i with
  | nil => cases h
  | cons x s ih =>
    rw [lastIndex] at h
    cases hs : lastIndex c s with
    | some j =>
      rw [hs] at h
      obtain rfl : j + 1 = i := Option.some.inj h
      obtain ⟨heq, hnot⟩ := ih hs
      exact ⟨congrArg (x :: ·) heq, hnot⟩
    | none =>
      rw [hs] at h
      simp only at h
      split_ifs at h with hx
      obtain rfl : 0 = i := Option.some.inj h
      exact ⟨by simp [hx], by simpa using lastIndex_eq_none.mp hs⟩

/-! ## Splitting -/

theorem orAll_ne_nil (s : GoString) : orAll s ≠ [] := by
  unfold orAll
  split_ifs with h
  · decide
  · exact h

theorem orAll_of_ne_nil {s : GoString} (h : s ≠ []) : orAll s = s := if_neg h

/-- What is filled in makes a string longer. -/
theorem length_orAll (s : GoString) :
    s ≠ [] ∧ orAll s = s ∨ s = [] ∧ s.length < (orAll s).length := by
  by_cases h : s = []
  · exact .inr ⟨h, by simp [h, orAll, ascii]⟩
  · exact .inl ⟨h, orAll_of_ne_nil h⟩

theorem le_length_orAll (s : GoString) : s.length ≤ (orAll s).length := by
  rcases length_orAll s with ⟨-, hsame⟩ | ⟨-, hlonger⟩
  · rw [hsame]
  · exact hlonger.le

@[simp] theorem orAll_orAll (s : GoString) : orAll (orAll s) = orAll s :=
  orAll_of_ne_nil (orAll_ne_nil s)

theorem not_mem_orAll {s : GoString} (h : underscore ∉ s) : underscore ∉ orAll s := by
  unfold orAll
  split_ifs
  · decide
  · exact h

/-- The parts between the last two separators, whatever comes before. -/
theorem splitKey_append (topic : GoString) {region tier : GoString} (hregion : underscore ∉ region)
    (htier : underscore ∉ tier) :
    splitKey (topic ++ [underscore] ++ region ++ [underscore] ++ tier) = (topic, region, tier) := by
  have hlast := lastIndex_append (topic ++ [underscore] ++ region) htier
  have hprev := lastIndex_append topic hregion
  simp only [splitKey, hlast]
  rw [List.append_assoc _ [underscore] tier, List.take_left, hprev]
  simp only [List.append_assoc, List.take_left]
  have hdrop : ∀ a b : GoString, (a ++ ([underscore] ++ b)).drop (a.length + 1) = b := by
    intro a b
    rw [← List.append_assoc, List.drop_left' (by simp)]
  rw [hdrop]
  have htail := hdrop (topic ++ ([underscore] ++ region)) tier
  simp only [List.append_assoc] at htail
  rw [htail]

/-- **Partition keys round-trip**, for any topic, and any region and tier
without underscores: the parts come back with what was empty filled in,
and make the same key. -/
theorem splitKey_partitionKey (topic region tier : GoString) (hregion : underscore ∉ region)
    (htier : underscore ∉ tier) :
    splitKey (partitionKey topic region tier) = (topic, orAll region, orAll tier) ∧
      rejoin (partitionKey topic region tier) = partitionKey topic region tier := by
  have hsplit : splitKey (partitionKey topic region tier) = (topic, orAll region, orAll tier) :=
    splitKey_append topic (not_mem_orAll hregion) (not_mem_orAll htier)
  refine ⟨hsplit, ?_⟩
  rw [rejoin, hsplit]
  simp only [partitionKey, orAll_orAll]

/-- A topic that starts and ends with an underscore. -/
theorem splitKey_partitionKey_underscores :
    splitKey (partitionKey (ascii "_raw_") [] (ascii "GOLD"))
        = (ascii "_raw_", orAll [], orAll (ascii "GOLD")) ∧
      rejoin (partitionKey (ascii "_raw_") [] (ascii "GOLD"))
        = partitionKey (ascii "_raw_") [] (ascii "GOLD") :=
  splitKey_partitionKey (ascii "_raw_") [] (ascii "GOLD") (by decide) (by decide)

/-! ## Any key put together again -/

/-- **A string with two separators** is its parts. -/
theorem splitKey_parts {key : GoString} (hcount : 2 ≤ key.count underscore) :
    (splitKey key).1 ++ [underscore] ++ (splitKey key).2.1 ++ [underscore] ++ (splitKey key).2.2
      = key := by
  obtain ⟨last, hlast⟩ : ∃ i, lastIndex underscore key = some i := by
    rw [← Option.ne_none_iff_exists', ne_eq, lastIndex_eq_none, not_not]
    exact List.count_pos_iff.mp (by omega)
  obtain ⟨hkey, htail⟩ := eq_of_lastIndex hlast
  -- behind the last separator there is none, so the other is before it
  obtain ⟨prev, hprev⟩ : ∃ i, lastIndex underscore (key.take last) = some i := by
    rw [← Option.ne_none_iff_exists', ne_eq, lastIndex_eq_none, not_not]
    rw [hkey] at hcount
    simp only [List.count_append, List.count_singleton_self, List.count_eq_zero.mpr htail] at hcount
    exact List.count_pos_iff.mp (by omega)
  obtain ⟨hrest, -⟩ := eq_of_lastIndex hprev
  simp only [splitKey, hlast, hprev]
  rw [← hrest, ← hkey]

/-- A key has at least two separators. -/
theorem two_le_count_partitionKey (topic region tier : GoString) :
    2 ≤ (partitionKey topic region tier).count underscore := by
  simp only [partitionKey, List.count_append, List.count_singleton_self]
  omega

theorem length_partitionKey (topic region tier : GoString) :
    (partitionKey topic region tier).length
      = topic.length + (orAll region).length + (orAll tier).length + 2 := by
  simp only [partitionKey, List.length_append, List.length_singleton]
  omega

/-- **A key put together again** is the key, or a longer one: where the
region or the tier read off it is empty. -/
theorem rejoin_cases (topic region tier : GoString) :
    let key := partitionKey topic region tier
    ((splitKey key).2.1 ≠ [] ∧ (splitKey key).2.2 ≠ [] ∧ rejoin key = key) ∨
      (((splitKey key).2.1 = [] ∨ (splitKey key).2.2 = []) ∧
        key.length < (rejoin key).length) := by
  intro key
  have hparts : (splitKey key).1 ++ [underscore] ++ (splitKey key).2.1 ++ [underscore]
      ++ (splitKey key).2.2 = key := splitKey_parts (two_le_count_partitionKey topic region tier)
  have hlen := congrArg List.length hparts
  simp only [List.length_append, List.length_singleton] at hlen
  -- what is filled in for an empty part makes the key longer
  have hrejoin := length_partitionKey (splitKey key).1 (splitKey key).2.1 (splitKey key).2.2
  rcases length_orAll (splitKey key).2.1 with ⟨hregion, hsame⟩ | ⟨hregion, hlonger⟩
  · rcases length_orAll (splitKey key).2.2 with ⟨htier, hsame'⟩ | ⟨htier, hlonger⟩
    · refine .inl ⟨hregion, htier, ?_⟩
      rw [rejoin, partitionKey, hsame, hsame']
      exact hparts
    · refine .inr ⟨.inr htier, ?_⟩
      rw [hsame] at hrejoin
      rw [rejoin]
      omega
  · refine .inr ⟨.inl hregion, ?_⟩
    have hgrows := le_length_orAll (splitKey key).2.2
    rw [rejoin]
    omega

end Broker

end TftAnalytics

import Mathlib.Logic.Relation
import Mathlib.Order.Defs.LinearOrder
import Mathlib.Data.Set.Insert
/-!
# Mixed comparison — by rank where there is one

Elements some of which have a rank are compared by rank where both have
one, and by their own order otherwise. Either comparison is an order; the
mixture is one only where no element without a rank lies between two that
rank the other way. `newerBy_trans_iff` and `newerBy_acyclic_iff` say so
exactly.
-/

namespace TftAnalytics

variable {α β : Type*}

/-- Two elements are both ranked, or one is not. -/
theorem rank_cases (rank : α → Option β) (a b : α) :
    (∃ x y, rank a = some x ∧ rank b = some y) ∨ rank a = none ∨ rank b = none := by
  cases ha : rank a with
  | none => exact .inr (.inl rfl)
  | some x =>
    cases hb : rank b with
    | none => exact .inr (.inr rfl)
    | some y => exact .inl ⟨x, y, rfl, rfl⟩

variable [LT α] [LinearOrder β]

/-- `a` is newer than `b`. -/
def NewerBy (rank : α → Option β) (a b : α) : Prop :=
  match rank a, rank b with
  | some x, some y => y < x
  | _, _ => b < a

/-- **An element without a rank between two that rank the other way**: `b`
lies above `a`, and `r` holds of the ranks of `b` and `a`. -/
def Straddled (r : β → β → Prop) (rank : α → Option β) (s : Set α) : Prop :=
  ∃ a ∈ s, ∃ b ∈ s, ∃ u ∈ s, rank u = none ∧ a < u ∧ u < b ∧ ∃ x ∈ rank a, ∃ y ∈ rank b, r y x

/-- A step to an older element of a set. -/
def Older (rank : α → Option β) (s : Set α) (a b : α) : Prop := a ∈ s ∧ b ∈ s ∧ NewerBy rank a b

variable {rank : α → Option β} {s : Set α} {a b c u : α}

theorem newerBy_of_some {x y : β} (ha : rank a = some x) (hb : rank b = some y) :
    NewerBy rank a b ↔ y < x := by
  simp [NewerBy, ha, hb]

theorem newerBy_of_none (h : rank a = none ∨ rank b = none) : NewerBy rank a b ↔ b < a := by
  rcases h with h | h
  · simp [NewerBy, h]
  · cases ha : rank a <;> simp [NewerBy, h]

/-- Going down from a ranked element meets only smaller ranks, or one
without a rank. -/
theorem transGen_cases (h : Relation.TransGen (Older rank s) a b) :
    (∃ x ∈ rank a, ∃ y ∈ rank b, y < x) ∨ rank a = none ∨
      ∃ u, rank u = none ∧ Relation.TransGen (Older rank s) a u ∧
        Relation.ReflTransGen (Older rank s) u b := by
  induction h with
  | @single b h =>
    rcases rank_cases rank a b with ⟨x, y, hx, hy⟩ | ha | hb
    · exact .inl ⟨x, hx, y, hy, (newerBy_of_some hx hy).mp h.2.2⟩
    · exact .inr (.inl ha)
    · exact .inr (.inr ⟨b, hb, .single h, .refl⟩)
  | @tail b c hab h ih =>
    rcases ih with ⟨x, hx, y, hy, hlt⟩ | ha | ⟨u, hu, hau, hub⟩
    · rcases rank_cases rank b c with ⟨y', z, hy', hz⟩ | hb | hc
      · obtain rfl : y = y' := by simpa [hy'] using hy.symm
        exact .inl ⟨x, hx, z, hz, ((newerBy_of_some hy' hz).mp h.2.2).trans hlt⟩
      · rw [Option.mem_def, hb] at hy
        cases hy
      · exact .inr (.inr ⟨c, hc, hab.tail h, .refl⟩)
    · exact .inr (.inl ha)
    · exact .inr (.inr ⟨u, hu, hau, hub.tail h⟩)

variable [IsStrictTotalOrder α (· < ·)]

/-- Nothing is newer than itself. -/
theorem newerBy_irrefl (rank : α → Option β) (a : α) : ¬ NewerBy rank a a := by
  rcases rank_cases rank a a with ⟨x, y, hx, hy⟩ | hnone
  · rw [newerBy_of_some hx hx]
    exact lt_irrefl x
  · rw [newerBy_of_none hnone]
    exact irrefl a

omit [LinearOrder β] in
/-- Of an element without a rank and a ranked one, either is below. -/
theorem lt_or_lt_of_rank (hu : rank u = none) (ha : rank a ≠ none) : a < u ∨ u < a := by
  rcases trichotomous_of (· < ·) a u with h | rfl | h
  · exact .inl h
  · exact absurd hu ha
  · exact .inr h

/-! ## Cycles -/

/-- The elements without a rank up to `a`. -/
def unranked (rank : α → Option β) (s : Set α) (a : α) : Set α :=
  {u | u ∈ s ∧ rank u = none ∧ (u = a ∨ u < a)}

/-- **A step to an older element never passes one without a rank
upwards.** -/
theorem Older.unranked_subset (hs : ¬ Straddled (· < ·) rank s) (h : Older rank s a b) :
    unranked rank s b ⊆ unranked rank s a := by
  obtain ⟨ha, hb, hnewer⟩ := h
  rintro u ⟨hu, hnone, hle⟩
  refine ⟨hu, hnone, ?_⟩
  rcases rank_cases rank a b with ⟨x, y, hx, hy⟩ | hunranked
  · have hlt : u < b := hle.resolve_left fun heq => by simp [← heq, hnone] at hy
    refine .inr ((lt_or_lt_of_rank hnone (by simp [hx])).resolve_left fun hau => hs ?_)
    exact ⟨a, ha, b, hb, u, hu, hnone, hau, hlt, x, hx, y, hy, (newerBy_of_some hx hy).mp hnewer⟩
  · have hlt := (newerBy_of_none hunranked).mp hnewer
    rcases hle with rfl | hub
    · exact .inr hlt
    · exact .inr (trans_of (· < ·) hub hlt)

theorem transGen_unranked_subset (hs : ¬ Straddled (· < ·) rank s)
    (h : Relation.TransGen (Older rank s) a b) : unranked rank s b ⊆ unranked rank s a := by
  induction h with
  | single h => exact h.unranked_subset hs
  | tail _ h ih => exact (h.unranked_subset hs).trans ih

/-- An element without a rank is not come back to. -/
theorem not_transGen_of_none (hs : ¬ Straddled (· < ·) rank s) (hu : rank u = none) :
    ¬ Relation.TransGen (Older rank s) u u := by
  intro h
  obtain ⟨b, hub, hbu⟩ := Relation.TransGen.head'_iff.mp h
  have hself : u ∈ unranked rank s b := by
    have hmem : u ∈ unranked rank s u := ⟨hub.1, hu, .inl rfl⟩
    rcases Relation.reflTransGen_iff_eq_or_transGen.mp hbu with rfl | htrans
    · exact hmem
    · exact transGen_unranked_subset hs htrans hmem
  have hlt := (newerBy_of_none (.inl hu)).mp hub.2.2
  rcases hself.2.2 with heq | hgt
  · exact irrefl_of (· < ·) u (heq ▸ hlt)
  · exact irrefl_of (· < ·) u (trans_of (· < ·) hgt hlt)

/-- **The comparison has no cycle** exactly where no element without a rank
lies between two that rank the other way. -/
theorem newerBy_acyclic_iff :
    (∀ a, ¬ Relation.TransGen (Older rank s) a a) ↔ ¬ Straddled (· < ·) rank s := by
  constructor
  · rintro hacyclic ⟨a, ha, b, hb, u, hu, hnone, hau, hub, x, hx, y, hy, hlt⟩
    have hab : Older rank s a b := ⟨ha, hb, (newerBy_of_some hx hy).mpr hlt⟩
    have hbu : Older rank s b u := ⟨hb, hu, (newerBy_of_none (.inr hnone)).mpr hub⟩
    have hua : Older rank s u a := ⟨hu, ha, (newerBy_of_none (.inl hnone)).mpr hau⟩
    exact hacyclic a (((Relation.TransGen.single hab).tail hbu).tail hua)
  · intro hs a h
    rcases transGen_cases h with ⟨x, hx, y, hy, hlt⟩ | ha | ⟨u, hu, hau, hua⟩
    · obtain rfl : x = y := Option.mem_unique hx hy
      exact lt_irrefl x hlt
    · exact not_transGen_of_none hs ha h
    · exact not_transGen_of_none hs hu (Relation.TransGen.trans_right hua hau)

/-! ## Transitivity -/

/-- **The comparison is transitive** exactly where no element without a
rank lies between two of which the upper does not rank above. -/
theorem newerBy_trans_iff :
    (∀ a ∈ s, ∀ b ∈ s, ∀ c ∈ s, NewerBy rank a b → NewerBy rank b c → NewerBy rank a c) ↔
      ¬ Straddled (· ≤ ·) rank s := by
  constructor
  · rintro htrans ⟨a, ha, b, hb, u, hu, hnone, hau, hub, x, hx, y, hy, hle⟩
    have hba := htrans b hb u hu a ha ((newerBy_of_none (.inr hnone)).mpr hub)
      ((newerBy_of_none (.inl hnone)).mpr hau)
    exact absurd ((newerBy_of_some hy hx).mp hba) (not_lt.mpr hle)
  · intro hs a ha b hb c hc hab hbc
    rcases rank_cases rank a c with ⟨x, z, hx, hz⟩ | hac
    · rw [newerBy_of_some hx hz]
      cases hy : rank b with
      | some y =>
        exact ((newerBy_of_some hy hz).mp hbc).trans ((newerBy_of_some hx hy).mp hab)
      | none =>
        -- the one in the middle has no rank, so `c` lies below it and `a` above
        refine not_le.mp fun hle => hs ⟨c, hc, a, ha, b, hb, hy, ?_, ?_, z, hz, x, hx, hle⟩
        · exact (newerBy_of_none (.inl hy)).mp hbc
        · exact (newerBy_of_none (.inr hy)).mp hab
    · rw [newerBy_of_none hac]
      rcases hac with hnone | hnone
      · have hba := (newerBy_of_none (.inl hnone)).mp hab
        rcases rank_cases rank b c with ⟨y, z, hy, hz⟩ | hbc'
        · -- `b` and `c` are ranked, and `a` cannot lie between them
          refine (lt_or_lt_of_rank hnone (by simp [hz])).resolve_right fun hac => hs ?_
          exact ⟨b, hb, c, hc, a, ha, hnone, hba, hac, y, hy, z, hz,
            ((newerBy_of_some hy hz).mp hbc).le⟩
        · exact trans_of (· < ·) ((newerBy_of_none hbc').mp hbc) hba
      · have hcb := (newerBy_of_none (.inr hnone)).mp hbc
        rcases rank_cases rank a b with ⟨x, y, hx, hy⟩ | hab'
        · refine (lt_or_lt_of_rank hnone (by simp [hx])).resolve_left fun hac => hs ?_
          exact ⟨a, ha, b, hb, c, hc, hnone, hac, hcb, x, hx, y, hy,
            ((newerBy_of_some hx hy).mp hab).le⟩
        · exact trans_of (· < ·) hcb ((newerBy_of_none hab').mp hab)

end TftAnalytics

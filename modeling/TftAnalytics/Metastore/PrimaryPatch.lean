import TftAnalytics.Common.Mixed
import TftAnalytics.Metastore.Model.Patch
import TftAnalytics.Metastore.Helpers.VClock
/-!
# Metastore — which patch is primary

`patchNewer` compares two patches that parse by their numbers and any
other two as strings, and a string that does not parse can lie between two
patches that rank the other way: `10.1` is newer than `9.1`, `9.1` than
`5`, and `5` than `10.1`. So the primary patch can go round in a circle,
and does not exactly where the patches announced have no such three.
-/

namespace TftAnalytics

namespace Metastore

/-- The numbers of a patch, the major one first. -/
def patchRank (p : GoString) : Option (ℤ ×ₗ ℤ) := (parsePatch p).map toLex

/-- Some patch that does not parse lies, as a string, between two that do
and of which the lower is newer by its numbers; under `r` equal numbers
may count as well. -/
def MixesOrders (r : ℤ ×ₗ ℤ → ℤ ×ₗ ℤ → Prop) (s : Set GoString) : Prop :=
  Straddled r patchRank s

/-- **No patch comes back**: along every sequence of calls that name
patches of `s`, a primary patch that was replaced is not primary again. -/
def NeverBack (s : Set GoString) : Prop :=
  ∀ (now : ℕ) (pre mid post : List PatchCall), (∀ call ∈ pre ++ mid ++ post, call.patch ∈ s) →
    (Patches.run now (pre ++ mid)).currentPatch ≠ (Patches.run now pre).currentPatch →
    (Patches.run now (pre ++ mid ++ post)).currentPatch ≠ (Patches.run now pre).currentPatch

/-- **The primary patch never regresses**: `patchNewer` is irreflexive and
transitive, and no patch comes back. -/
structure NeverRegresses (s : Set GoString) : Prop where
  irrefl : ∀ p ∈ s, patchNewer p p = false
  trans : ∀ p ∈ s, ∀ q ∈ s, ∀ r ∈ s, patchNewer p q = true → patchNewer q r = true →
    patchNewer p r = true
  back : NeverBack s

/-! ## The order of patches -/

/-- Go strings are ordered by their bytes. -/
theorem isStrictTotalOrder_goString : IsStrictTotalOrder GoString (· < ·) := {}

/-- **`patchNewer` is the mixed comparison** by the numbers of a patch. -/
theorem patchNewer_iff {a b : GoString} : patchNewer a b = true ↔ NewerBy patchRank a b := by
  unfold patchNewer NewerBy patchRank
  rcases parsePatch a with _ | ⟨am, an⟩ <;> rcases parsePatch b with _ | ⟨bm, bn⟩
  · simp
  · simp
  · simp
  · simp only [Option.map_some, Prod.Lex.toLex_lt_toLex]
    split_ifs with hm
    · simp [Ne.symm hm]
    · obtain rfl : am = bm := not_not.mp hm
      simp

theorem patchNewer_irrefl (p : GoString) : patchNewer p p = false := by
  have := isStrictTotalOrder_goString
  rw [← Bool.not_eq_true, patchNewer_iff]
  exact newerBy_irrefl patchRank p

/-! ## Calls -/

/-- The patch that is primary after another: the same, a first one, or one
reached by ever newer patches. -/
def Follows (s : Set GoString) (p q : GoString) : Prop :=
  q = p ∨ p = [] ∧ q ≠ [] ∨ q ≠ [] ∧ Relation.TransGen (Older patchRank s) q p

theorem Follows.trans {s : Set GoString} {p q r : GoString} (h : Follows s p q)
    (h' : Follows s q r) : Follows s p r := by
  rcases h with rfl | ⟨hp, hq⟩ | ⟨hq, hqp⟩
  · exact h'
  · rcases h' with rfl | ⟨-, hr⟩ | ⟨hr, -⟩
    · exact .inr (.inl ⟨hp, hq⟩)
    · exact .inr (.inl ⟨hp, hr⟩)
    · exact .inr (.inl ⟨hp, hr⟩)
  · rcases h' with rfl | ⟨hnil, -⟩ | ⟨hr, hrq⟩
    · exact .inr (.inr ⟨hq, hqp⟩)
    · exact absurd hnil hq
    · exact .inr (.inr ⟨hr, hrq.trans hqp⟩)

@[simp] theorem currentPatch_see (now : ℕ) (patch : GoString) (s : Patches) :
    (s.see now patch).currentPatch = s.currentPatch := by
  unfold Patches.see
  split_ifs <;> rfl

/-- **One call**: the primary patch stays, is set for the first time, or
gives way to a newer one. -/
theorem currentPatch_call (s : Patches) (call : PatchCall) :
    (s.call call).currentPatch = s.currentPatch ∨
      call.patch ≠ [] ∧ (s.call call).currentPatch = call.patch ∧
        (s.currentPatch = [] ∨ patchNewer call.patch s.currentPatch = true) := by
  cases call with
  | track now now' patch sampleSize =>
    simp only [Patches.call, Patches.trackPatch, PatchCall.patch, currentPatch_see]
    split_ifs with hnil hcur hnewer
    · exact .inl rfl
    · exact .inr ⟨hnil, rfl, .inl hcur⟩
    · exact .inr ⟨hnil, rfl, .inr hnewer.2⟩
    · exact .inl (currentPatch_see ..)
  | notify now now' patch =>
    simp only [Patches.call, Patches.notifyPatch, PatchCall.patch, currentPatch_see]
    split_ifs with hnil hcur
    · exact .inl rfl
    · exact .inr ⟨hnil, rfl, .inl hcur⟩
    · exact .inl (currentPatch_see ..)

/-- **A run of calls** that name patches of `s`. -/
theorem follows_foldl {s : Set GoString} (calls : List PatchCall)
    (hcalls : ∀ call ∈ calls, call.patch ∈ s) (σ : Patches)
    (hσ : σ.currentPatch = [] ∨ σ.currentPatch ∈ s) :
    Follows s σ.currentPatch (calls.foldl Patches.call σ).currentPatch ∧
      ((calls.foldl Patches.call σ).currentPatch = [] ∨
        (calls.foldl Patches.call σ).currentPatch ∈ s) := by
  induction calls generalizing σ with
  | nil => exact ⟨.inl rfl, hσ⟩
  | cons call calls ih =>
    obtain ⟨hcall, hcalls⟩ := List.forall_mem_cons.mp hcalls
    obtain ⟨hstep, hmem⟩ : Follows s σ.currentPatch (σ.call call).currentPatch ∧
        ((σ.call call).currentPatch = [] ∨ (σ.call call).currentPatch ∈ s) := by
      rcases currentPatch_call σ call with heq | ⟨hne, heq, hold⟩
      · exact ⟨.inl heq, heq ▸ hσ⟩
      · refine ⟨?_, .inr (heq ▸ hcall)⟩
        rw [heq]
        by_cases hnil : σ.currentPatch = []
        · exact .inr (.inl ⟨hnil, hne⟩)
        · have hnewer := patchNewer_iff.mp (hold.resolve_left hnil)
          exact .inr (.inr ⟨hne, .single ⟨hcall, hσ.resolve_left hnil, hnewer⟩⟩)
    obtain ⟨hrest, hmem'⟩ := ih hcalls _ hmem
    exact ⟨hstep.trans hrest, hmem'⟩

theorem run_append (now : ℕ) (calls calls' : List PatchCall) :
    Patches.run now (calls ++ calls') = calls'.foldl Patches.call (Patches.run now calls) :=
  List.foldl_append

/-- A patch comes back only around a circle of newer ones. -/
theorem neverBack_of_acyclic {s : Set GoString}
    (h : ∀ p, ¬ Relation.TransGen (Older patchRank s) p p) : NeverBack s := by
  intro now pre mid post hcalls hne heq
  simp only [List.forall_mem_append] at hcalls
  obtain ⟨⟨hpre, hmid⟩, hpost⟩ := hcalls
  obtain ⟨-, hmem⟩ := follows_foldl pre hpre (.new now) (.inl rfl)
  obtain ⟨hthere, hmem'⟩ := follows_foldl mid hmid (Patches.run now pre) hmem
  obtain ⟨hback, -⟩ := follows_foldl post hpost _ hmem'
  rw [← run_append] at hthere hback
  rw [← run_append, heq] at hback
  rcases hthere with hsame | ⟨hnil, hq⟩ | ⟨hq, hqp⟩
  · exact hne hsame
  · -- there was none, and once there is one there always is
    rcases hback with hsame | ⟨hnil', -⟩ | ⟨hp, -⟩
    · exact hne hsame.symm
    · exact hq hnil'
    · exact hp hnil
  · rcases hback with hsame | ⟨hnil, -⟩ | ⟨-, hpq⟩
    · exact hne hsame.symm
    · exact hq hnil
    · exact h _ (hqp.trans hpq)

/-- A patch that parses is not empty. -/
theorem ne_nil_of_patchRank {p : GoString} {x : ℤ ×ₗ ℤ} (h : patchRank p = some x) : p ≠ [] := by
  rintro rfl
  cases h

/-- **A straddled patch brings one back**: the older by its numbers, then
the newer one, the one between them, and the first again. -/
theorem not_neverBack_of_straddled {s : Set GoString} (h : MixesOrders (· < ·) s) :
    ¬ NeverBack s := by
  obtain ⟨a, ha, b, hb, u, hu, hnone, hau, hub, x, hx, y, hy, hlt⟩ := h
  have hab : patchNewer a b = true := patchNewer_iff.mpr ((newerBy_of_some hx hy).mpr hlt)
  have hua : patchNewer u a = true := patchNewer_iff.mpr ((newerBy_of_none (.inl hnone)).mpr hau)
  have hbu : patchNewer b u = true := patchNewer_iff.mpr ((newerBy_of_none (.inr hnone)).mpr hub)
  have hane := ne_nil_of_patchRank hx
  have hbne := ne_nil_of_patchRank hy
  have hune : u ≠ [] := by
    rintro rfl
    exact List.not_lt_nil a hau
  intro hnever
  -- enough events of a newer patch make it the current one
  have hrise : ∀ {p : GoString} {σ : Patches}, σ.currentPatch ≠ [] → p ≠ [] →
      patchNewer p σ.currentPatch = true →
      (σ.call (.track 0 0 p promoteThreshold)).currentPatch = p := by
    intro p σ hσ hp hnewer
    simp only [Patches.call, Patches.trackPatch, currentPatch_see]
    rw [if_neg hp, if_neg hσ, if_pos ⟨Int64.le_refl promoteThreshold, hnewer⟩]
    rfl
  -- once round the circle: `b`, `a`, `u`, and `b` again
  have h₁ : (Patches.run 0 [.notify 0 0 b]).currentPatch = b := by
    simp [Patches.run, Patches.call, Patches.notifyPatch, hbne, Patches.new, Patches.promote]
  have h₂ : (Patches.run 0 [.notify 0 0 b, .track 0 0 a promoteThreshold]).currentPatch = a :=
    hrise (h₁.symm ▸ hbne) hane (h₁.symm ▸ hab)
  have h₃ : (Patches.run 0 [.notify 0 0 b, .track 0 0 a promoteThreshold,
      .track 0 0 u promoteThreshold]).currentPatch = u :=
    hrise (h₂.symm ▸ hane) hune (h₂.symm ▸ hua)
  have h₄ : (Patches.run 0 [.notify 0 0 b, .track 0 0 a promoteThreshold,
      .track 0 0 u promoteThreshold, .track 0 0 b promoteThreshold]).currentPatch = b :=
    hrise (h₃.symm ▸ hune) hbne (h₃.symm ▸ hbu)
  have hne : a ≠ b := by
    rintro rfl
    rw [patchNewer_irrefl] at hab
    cases hab
  refine hnever 0 [.notify 0 0 b] [.track 0 0 a promoteThreshold]
    [.track 0 0 u promoteThreshold, .track 0 0 b promoteThreshold] ?_ ?_ (h₄.trans h₁.symm)
  · simp [PatchCall.patch, ha, hb, hu]
  · exact h₂.trans_ne (hne.trans_eq h₁.symm)

/-! ## The result -/

/-- **The primary patch never regresses exactly where the two orders do not
mix**: among the patches that calls name, no string that does not parse
lies between two that do and of which the lower is as new or newer. That
no patch comes back needs only that it is not newer. -/
theorem primary_patch_iff (s : Set GoString) :
    (NeverRegresses s ↔ ¬ MixesOrders (· ≤ ·) s) ∧ (NeverBack s ↔ ¬ MixesOrders (· < ·) s) := by
  have := isStrictTotalOrder_goString
  have hback : NeverBack s ↔ ¬ MixesOrders (· < ·) s :=
    ⟨fun h hmix => not_neverBack_of_straddled hmix h,
      fun h => neverBack_of_acyclic (newerBy_acyclic_iff.mpr h)⟩
  refine ⟨⟨fun h => newerBy_trans_iff.mp fun p hp q hq r hr => ?_, fun h => ?_⟩, hback⟩
  · simpa only [patchNewer_iff] using h.trans p hp q hq r hr
  · have htrans := newerBy_trans_iff.mpr h
    refine ⟨fun p _ => patchNewer_irrefl p, fun p hp q hq r hr => ?_, hback.mpr fun hmix => h ?_⟩
    · simpa only [patchNewer_iff] using htrans p hp q hq r hr
    · obtain ⟨a, ha, b, hb, u, hu, hnone, hau, hub, x, hx, y, hy, hlt⟩ := hmix
      exact ⟨a, ha, b, hb, u, hu, hnone, hau, hub, x, hx, y, hy, hlt.le⟩

/-- **The primary patch regresses**: after `9.1` come `10.1`, `5` and `9.1`
again, each with the samples to be promoted, and each newer than the one
before it. -/
theorem not_neverRegresses : ¬ NeverRegresses Set.univ := by
  intro h
  have hback := h.back 0 [.notify 0 0 (ascii "9.1")] [.track 0 0 (ascii "10.1") 500]
    [.track 0 0 (ascii "5") 500, .track 0 0 (ascii "9.1") 500] (by simp) (by decide)
  exact hback (by decide)

end Metastore

end TftAnalytics

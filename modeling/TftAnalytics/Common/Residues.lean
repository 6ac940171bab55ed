import Mathlib.Data.Int.ModEq
import Mathlib.Data.Set.Finite.Basic
import Mathlib.Tactic.Ring
import Mathlib.Tactic.LinearCombination
/-!
# Residues — orbits of an odd factor

A set of residues modulo a power of two that is closed under multiplying by
a factor `a ≡ 3 (mod 8)`. The powers of `a` reach every bit above the third
one by one, so that with the bits below reached otherwise the set is
everything. And what a map of a finite type leads out of a set, an
injective map that keeps the set does not lead into it.
-/

namespace TftAnalytics

/-- A finite set that an injective map keeps, it does not enter. -/
theorem mem_of_map_mem {α : Type*} [Finite α] {S : Set α} {f : α → α}
    (hinj : Function.Injective f) (hmaps : Set.MapsTo f S S) {x : α} (hx : f x ∈ S) : x ∈ S := by
  have hbij : Set.BijOn f S S :=
    (Set.Finite.injOn_iff_bijOn_of_mapsTo (Set.toFinite S) hmaps).mp hinj.injOn
  obtain ⟨y, hy, hfy⟩ := hbij.surjOn hx
  exact hinj hfy ▸ hy

/-- **The powers of the factor** move the bits one by one. -/
theorem dvd_pow_two_pow_sub {a : ℤ} (ha : a % 8 = 3) (n : ℕ) :
    2 ^ (n + 4) ∣ a ^ 2 ^ (n + 1) - (1 + 2 ^ (n + 3)) := by
  induction n with
  | zero =>
    obtain ⟨q, hq⟩ : ∃ q, a = 8 * q + 3 := ⟨a / 8, by omega⟩
    exact ⟨4 * q ^ 2 + 3 * q, by rw [hq]; ring⟩
  | succ n ih =>
    obtain ⟨c, hc⟩ := ih
    -- the square of `1 + 2 ^ (n + 3) * y` for an odd `y`
    have hx : a ^ 2 ^ (n + 1) = 1 + 2 ^ (n + 3) * (1 + 2 * c) := by
      linear_combination hc
    have hsq : a ^ 2 ^ (n + 2) = (1 + 2 ^ (n + 3) * (1 + 2 * c)) ^ 2 := by
      rw [← hx, ← pow_mul, ← pow_succ]
    refine ⟨c + 2 ^ (n + 1) * (1 + 2 * c) ^ 2, ?_⟩
    rw [hsq]
    ring

section

variable {w : ℕ} {a : ℤ} {S : ℤ → Prop}

theorem mul_pow_mem (hmul : ∀ x, S x → S (x * a)) (k : ℕ) {x : ℤ} (hx : S x) :
    S (x * a ^ k) := by
  induction k with
  | zero => simpa using hx
  | succ k ih =>
    rw [pow_succ, ← mul_assoc]
    exact hmul _ ih

/-- One bit more, of an odd residue. -/
theorem exists_modEq_of_odd (ha : a % 8 = 3) (hmul : ∀ x, S x → S (x * a)) {n : ℕ} {x y : ℤ}
    (hx : S x) (hodd : y % 2 = 1) (hxy : x ≡ y [ZMOD 2 ^ (n + 3)]) :
    ∃ x', S x' ∧ x' ≡ y [ZMOD 2 ^ (n + 4)] := by
  obtain ⟨c, hc⟩ := hxy.dvd
  obtain ⟨d, hd⟩ := dvd_pow_two_pow_sub ha n
  rcases Int.emod_two_eq_zero_or_one c with heven | hodd'
  · refine ⟨x, hx, Int.modEq_iff_dvd.mpr ⟨c / 2, ?_⟩⟩
    have hhalf : c = 2 * (c / 2) := by omega
    rw [hc, pow_succ 2 (n + 3), mul_assoc, ← hhalf]
  · -- the bit is wrong: a power of the factor toggles it, for `x` is odd
    have hxodd : ∃ e, x = 2 * e + 1 := by
      have hpow : (2 : ℤ) ^ (n + 3) = 2 * 2 ^ (n + 2) := by ring
      rw [hpow, mul_assoc] at hc
      exact ⟨x / 2, by omega⟩
    obtain ⟨e, he⟩ := hxodd
    obtain ⟨c', hc'⟩ : ∃ c', c = 2 * c' + 1 := ⟨c / 2, by omega⟩
    refine ⟨x * a ^ 2 ^ (n + 1), mul_pow_mem hmul _ hx, Int.modEq_iff_dvd.mpr ⟨c' - e - x * d, ?_⟩⟩
    subst hc'
    linear_combination hc - x * hd - 2 ^ (n + 3) * he

/-- **Closed under the factor and under clearing the lowest bit, with an
element in every class modulo 8: everything.** -/
theorem forall_of_odd_factor (ha : a % 8 = 3)
    (hcongr : ∀ x y, x ≡ y [ZMOD 2 ^ w] → S x → S y) (hmul : ∀ x, S x → S (x * a))
    (hlow : ∀ x, S (2 * x + 1) → S (2 * x)) (hclass : ∀ y, ∃ x, S x ∧ x ≡ y [ZMOD 8]) (y : ℤ) :
    S y := by
  have hbits : ∀ n y, ∃ x, S x ∧ x ≡ y [ZMOD 2 ^ (n + 3)] := by
    intro n
    induction n with
    | zero => exact hclass
    | succ n ih =>
      have hoddcase : ∀ y, y % 2 = 1 → ∃ x, S x ∧ x ≡ y [ZMOD 2 ^ (n + 4)] := by
        intro y hodd
        obtain ⟨x, hx, hxy⟩ := ih y
        exact exists_modEq_of_odd ha hmul hx hodd hxy
      intro y
      rcases Int.emod_two_eq_zero_or_one y with heven | hodd
      · -- an even residue is an odd one with its lowest bit cleared
        obtain ⟨x, hx, hxy⟩ := hoddcase (y + 1) (by omega)
        have hpar : x % 2 = (y + 1) % 2 := hxy.of_dvd (dvd_pow_self 2 (Nat.succ_ne_zero (n + 3)))
        obtain ⟨z, rfl⟩ : ∃ z, x = 2 * z + 1 := ⟨x / 2, by omega⟩
        exact ⟨2 * z, hlow z hx, Int.ModEq.add_right_cancel' 1 hxy⟩
      · exact hoddcase y hodd
  obtain ⟨x, hx, hxy⟩ := hbits w y
  exact hcongr x y (hxy.of_dvd (pow_dvd_pow 2 (by omega))) hx

end

end TftAnalytics

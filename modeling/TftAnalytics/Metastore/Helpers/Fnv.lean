import TftAnalytics.Metastore.Model.Bloom
import TftAnalytics.Common.Residues
import Mathlib.Data.Nat.Bitwise
/-!
# Metastore — every hash is the hash of some key

Helper layer. One more byte turns the hash `h` of a key into `(h ^ b) * p`.
The prime `p` is odd, so the hashes that occur are also closed under the
exclusive or with a byte, which reaches the lowest bits; and it is 3 modulo
8, so its powers reach the others.
-/

namespace TftAnalytics

namespace Metastore

/-- `prime64` of FNV. -/
def fnvPrime : UInt64 := 1099511628211

theorem fnv1a_concat (s : GoString) (b : UInt8) :
    fnv1a (s ++ [b]) = (fnv1a s ^^^ b.toUInt64) * fnvPrime := by
  unfold fnv1a
  rw [List.foldl_append]
  rfl

theorem mul_fnvPrime_injective : Function.Injective fun h : UInt64 => h * fnvPrime := by
  -- the inverse of the prime modulo `2 ^ 64`
  refine Function.LeftInverse.injective (g := fun h : UInt64 => h * 0xce965057aff6957b) fun h => ?_
  show h * fnvPrime * _ = h
  rw [UInt64.mul_assoc]
  exact UInt64.mul_one h

/-- Multiplying by the prime leads from hashes to hashes. -/
theorem mul_mem_range_fnv1a {h : UInt64} (hh : h ∈ Set.range fnv1a) :
    h * fnvPrime ∈ Set.range fnv1a := by
  obtain ⟨s, rfl⟩ := hh
  refine ⟨s ++ [0], ?_⟩
  rw [fnv1a_concat]
  exact congrArg (· * fnvPrime) UInt64.xor_zero

/-- And so does the exclusive or with a byte. -/
theorem xor_mem_range_fnv1a {h : UInt64} (hh : h ∈ Set.range fnv1a) (b : UInt8) :
    h ^^^ b.toUInt64 ∈ Set.range fnv1a := by
  have hfinite : Finite UInt64 := Finite.of_injective UInt64.toFin fun _ _ => UInt64.toFin_inj.mp
  have hmaps : Set.MapsTo (fun h => h * fnvPrime) (Set.range fnv1a) (Set.range fnv1a) :=
    fun _ => mul_mem_range_fnv1a
  refine mem_of_map_mem mul_fnvPrime_injective hmaps ?_
  obtain ⟨s, rfl⟩ := hh
  exact ⟨s ++ [b], fnv1a_concat s b⟩

/-- **FNV-1a is onto.** -/
theorem fnv1a_surjective : Function.Surjective fnv1a := by
  let S : ℤ → Prop := fun z => ∃ h ∈ Set.range fnv1a, (h.toNat : ℤ) ≡ z [ZMOD 2 ^ 64]
  have hall : ∀ z, S z := by
    refine forall_of_odd_factor (w := 64) (a := 1099511628211) (by decide) ?_ ?_ ?_ ?_
    · rintro x y hxy ⟨h, hh, hx⟩
      exact ⟨h, hh, hx.trans hxy⟩
    · rintro x ⟨h, hh, hx⟩
      refine ⟨h * fnvPrime, mul_mem_range_fnv1a hh, ?_⟩
      rw [UInt64.toNat_mul, Int.natCast_mod]
      push_cast
      exact (Int.mod_modEq _ _).trans (hx.mul_right _)
    · rintro x ⟨h, hh, hx⟩
      refine ⟨h ^^^ (1 : UInt8).toUInt64, xor_mem_range_fnv1a hh 1, ?_⟩
      have hodd : Odd h.toNat := by
        have hpar : (h.toNat : ℤ) % 2 = (2 * x + 1) % 2 := hx.of_dvd (dvd_pow_self 2 (by decide))
        rw [Nat.odd_iff]
        omega
      have htoggle : (h ^^^ (1 : UInt8).toUInt64).toNat = h.toNat - 1 :=
        (UInt64.toNat_xor _ _).trans (Nat.xor_one_of_odd hodd)
      have hpos : 1 ≤ h.toNat := by
        obtain ⟨k, hk⟩ := hodd
        omega
      rw [htoggle, Nat.cast_sub hpos]
      exact (hx.sub_right 1).trans (by rw [add_sub_cancel_right])
    · intro y
      -- the hash of the empty key, with the lowest bits chosen
      have hlow : ∀ r : Fin 8, ∃ b : Fin 8,
          (fnv1a [] ^^^ (UInt8.ofNat b).toUInt64).toNat % 8 = r := by decide
      obtain ⟨b, hb⟩ := hlow ⟨(y % 8).toNat, by omega⟩
      refine ⟨((fnv1a [] ^^^ (UInt8.ofNat b).toUInt64).toNat : ℤ),
        ⟨_, xor_mem_range_fnv1a ⟨[], rfl⟩ _, Int.ModEq.refl _⟩, ?_⟩
      show _ % 8 = y % 8
      have hb' : (fnv1a [] ^^^ (UInt8.ofNat b).toUInt64).toNat % 8 = (y % 8).toNat := hb
      omega
  intro v
  obtain ⟨h, ⟨s, rfl⟩, hv⟩ := hall v.toNat
  refine ⟨s, UInt64.toNat_inj.mp ?_⟩
  have hlt := (fnv1a s).toNat_lt
  have hlt' := v.toNat_lt
  have hmod : ((fnv1a s).toNat : ℤ) % 2 ^ 64 = v.toNat % 2 ^ 64 := hv
  omega

end Metastore

end TftAnalytics

import Mathlib.Data.Nat.ModEq
import Mathlib.Data.List.Sort
import Mathlib.Tactic.Ring
/-!
# Bytes — big-endian fields and whole reads

Byte strings are lists of `UInt8`, and so are Go strings, which are
immutable byte sequences. A fixed-width unsigned field is written most
significant byte first, and a write keeps the low bytes of what it is
given, as a Go conversion to the field's type does.
-/

namespace TftAnalytics

/-- A byte string. -/
abbrev Bytes := List UInt8

/-- A Go string. -/
abbrev GoString := List UInt8

/-- Equality of Go strings is equality of their bytes. -/
instance : LawfulBEq GoString := inferInstance

/-- The bytes of an ASCII literal. -/
def ascii (s : String) : GoString := s.toList.map fun c => UInt8.ofNat c.toNat

/-- Sorting by keys that are all different puts the keys in strictly
ascending order. -/
theorem sorted_insertionSort {α : Type*} (key : α → GoString) {l : List α}
    (hnodup : (l.map key).Nodup) :
    ((l.insertionSort fun a b => key a ≤ key b).map key).Pairwise (· < ·) := by
  rw [List.map_insertionSort _ (· ≤ ·) key l fun _ _ _ _ => Iff.rfl]
  have hnodup' : ((l.map key).insertionSort (· ≤ ·)).Nodup :=
    (List.perm_insertionSort _ _).nodup_iff.mpr hnodup
  exact (List.pairwise_insertionSort (· ≤ ·) (l.map key)).and hnodup' |>.imp
    fun h => Std.lt_of_le_of_ne h.1 h.2

/-- The `w`-byte big-endian field holding `n`, truncated to its width. -/
def beBytes : ℕ → ℕ → Bytes
  | 0, _ => []
  | w + 1, n => UInt8.ofNat (n / 256 ^ w) :: beBytes w n

/-- The number a big-endian field holds. -/
def beNat (b : Bytes) : ℕ := b.foldl (fun acc x => acc * 256 + x.toNat) 0

@[simp] theorem length_beBytes (w n : ℕ) : (beBytes w n).length = w := by
  induction w with
  | zero => rfl
  | succ w ih => simp [beBytes, ih]

/-- Reading a field continues from what was read before it. -/
theorem foldl_beBytes (w n acc : ℕ) :
    (beBytes w n).foldl (fun acc x => acc * 256 + x.toNat) acc
      = acc * 256 ^ w + n % 256 ^ w := by
  induction w generalizing acc with
  | zero => simp [beBytes, Nat.mod_one]
  | succ w ih =>
    rw [beBytes, List.foldl_cons, ih]
    have hdigit : (UInt8.ofNat (n / 256 ^ w)).toNat = n / 256 ^ w % 256 := by simp
    have hmod : n % 256 ^ (w + 1) = n % 256 ^ w + 256 ^ w * (n / 256 ^ w % 256) := by
      rw [pow_succ, Nat.mod_mul]
    rw [hdigit, hmod]
    ring

/-- **A field reads back as what it was given, modulo its width.** -/
theorem beNat_beBytes (w n : ℕ) : beNat (beBytes w n) = n % 256 ^ w := by
  rw [beNat, foldl_beBytes]
  simp

/-- So a value the width holds reads back unchanged. -/
theorem beNat_beBytes_of_lt {w n : ℕ} (h : n < 256 ^ w) : beNat (beBytes w n) = n := by
  rw [beNat_beBytes, Nat.mod_eq_of_lt h]

/-- Reading a field multiplies by its width. -/
theorem foldl_lt (b : Bytes) (acc : ℕ) :
    b.foldl (fun acc x => acc * 256 + x.toNat) acc < (acc + 1) * 256 ^ b.length := by
  induction b generalizing acc with
  | nil => simp
  | cons x b ih =>
    have hx : x.toNat < 256 := x.toNat_lt
    calc (x :: b).foldl (fun acc x => acc * 256 + x.toNat) acc
        < (acc * 256 + x.toNat + 1) * 256 ^ b.length := ih _
      _ ≤ ((acc + 1) * 256) * 256 ^ b.length := Nat.mul_le_mul_right _ (by omega)
      _ = (acc + 1) * 256 ^ (x :: b).length := by rw [List.length_cons, pow_succ]; ring

/-- So a field holds a number of its width. -/
theorem beNat_lt (b : Bytes) : beNat b < 256 ^ b.length := by
  simpa [beNat] using foldl_lt b 0

/-- `io.ReadFull` at the front of `b`: the first `n` bytes and the rest,
or nothing when fewer than `n` are left. -/
def readFull (n : ℕ) (b : Bytes) : Option (Bytes × Bytes) :=
  if n ≤ b.length then some (b.take n, b.drop n) else none

theorem readFull_append {n : ℕ} {c : Bytes} (h : c.length = n) (rest : Bytes) :
    readFull n (c ++ rest) = some (c, rest) := by
  subst h
  simp [readFull]

theorem readFull_eq_none {n : ℕ} {b : Bytes} (h : b.length < n) : readFull n b = none :=
  if_neg (by omega)

theorem readFull_eq_some {n : ℕ} {b c rest : Bytes} (h : readFull n b = some (c, rest)) :
    b = c ++ rest ∧ c.length = n := by
  unfold readFull at h
  split at h
  · simp only [Option.some.injEq, Prod.mk.injEq] at h
    obtain ⟨rfl, rfl⟩ := h
    exact ⟨(List.take_append_drop n b).symm, by simp; omega⟩
  · cases h

end TftAnalytics

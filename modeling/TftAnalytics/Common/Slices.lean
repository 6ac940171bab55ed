import TftAnalytics.Common.Bytes
import Mathlib.Data.Int.ModEq
/-!
# Slices — positioned reads of byte strings

Reading at an offset: of a slice, where an index out of range is a Go
panic, and of a file, where it is an error. What is read at the end of a
prefix is what stands after it, so a layout is read back by naming what
precedes each field.
-/

namespace TftAnalytics

/-- How a Go function fails: it returns an error, or it panics. Running out
of memory ends the process as well, and counts as a panic. -/
inductive Fault
  | error
  | panic
  deriving DecidableEq, Repr

/-- A step that succeeds hands on its result. -/
theorem ok_bind {α β : Type} (a : α) (next : α → Except Fault β) :
    (Except.ok a >>= next) = next a := rfl

/-- `int64(n)` of an unsigned 64-bit value. -/
def asInt64 (n : ℕ) : ℤ := (n : ℤ).bmod (2 ^ 64)

theorem asInt64_of_lt {n : ℕ} (h : n < 2 ^ 63) : asInt64 n = n := by
  unfold asInt64
  exact Int.bmod_eq_of_le (by omega) (by omega)

/-- The largest allocation of a 64-bit Go process; a longer `make`
panics. -/
def maxAlloc : ℕ := 2 ^ 48

/-- What `make` is called for, by its length: bytes, 64-bit words, strings,
or a map with room for so many keys. -/
inductive Make
  | bytes (n : ℕ)
  | words (n : ℕ)
  | strings (n : ℕ)
  | map (n : ℕ)
  deriving DecidableEq, Repr

/-- The memory of a process: the calls of `make` it has room for, which a
dozen words always are. Any other call ends it. -/
structure Runtime where
  hasRoom : Make → Bool
  small : ∀ n ≤ 12, hasRoom (.words n) = true

namespace Runtime

/-- A process with room for all that Go can allocate. -/
def ample : Runtime where
  hasRoom
    | .bytes n => n ≤ maxAlloc
    | _ => true
  small := fun _ _ => rfl

/-- A call of `make` with a length that is not negative. -/
def make (rt : Runtime) (call : Make) : Except Fault Unit :=
  if rt.hasRoom call then .ok () else .error .panic

/-- `make([]byte, n)`: the length it gives. -/
def makeBytes (rt : Runtime) (n : ℤ) : Except Fault ℕ :=
  if 0 ≤ n ∧ rt.hasRoom (.bytes n.toNat) then .ok n.toNat else .error .panic

variable {rt : Runtime} {call : Make}

theorem make_of_room (h : rt.hasRoom call) : rt.make call = .ok () := if_pos h

theorem make_of_full (h : ¬ rt.hasRoom call) : rt.make call = .error .panic := if_neg h

theorem makeBytes_ample {n : ℕ} (h : n ≤ maxAlloc) : ample.makeBytes n = .ok n := by
  have hroom : ample.hasRoom (.bytes (n : ℤ).toNat) = true := by
    rw [Int.toNat_natCast]
    exact decide_eq_true h
  unfold makeBytes
  rw [if_pos ⟨Int.natCast_nonneg n, hroom⟩, Int.toNat_natCast]

end Runtime

/-- `b[i:j]`. -/
def slice (b : Bytes) (i j : ℕ) : Except Fault Bytes :=
  if i ≤ j ∧ j ≤ b.length then .ok ((b.drop i).take (j - i)) else .error .panic

/-- The big-endian field of width `w` at `b[i:]`. -/
def fieldAt (b : Bytes) (i w : ℕ) : Except Fault ℕ := do
  let field ← slice b i (i + w)
  pure (beNat field)

/-- `ReadAt` into a buffer of `n` bytes: an error at a negative offset,
and where the file ends before the buffer is full. -/
def fileReadAt (file : Bytes) (n : ℕ) (off : ℤ) : Except Fault Bytes :=
  if 0 ≤ off ∧ (n = 0 ∨ off + n ≤ file.length) then .ok ((file.drop off.toNat).take n)
  else .error .error

section

variable {b p q mid : Bytes} {i j n w : ℕ}

/-- **A slice behind a prefix** is what stands there. -/
theorem slice_eq (hb : b = p ++ mid ++ q) (hi : i = p.length)
    (hj : j = i + mid.length) : slice b i j = .ok mid := by
  subst hb hi hj
  unfold slice
  rw [if_pos (by simp), List.append_assoc, List.drop_left]
  simp

/-- A field behind a prefix. -/
theorem fieldAt_beBytes (hb : b = p ++ beBytes w n ++ q) (hi : i = p.length) :
    fieldAt b i w = .ok (n % 256 ^ w) := by
  unfold fieldAt
  rw [slice_eq hb hi (by simp)]
  show Except.ok (beNat (beBytes w n)) = _
  rw [beNat_beBytes]

/-- And for a value its width holds. -/
theorem fieldAt_eq (hb : b = p ++ beBytes w n ++ q) (hi : i = p.length)
    (hn : n < 256 ^ w) : fieldAt b i w = .ok n := by
  rw [fieldAt_beBytes hb hi, Nat.mod_eq_of_lt hn]

/-- And a read of a file behind a prefix. -/
theorem fileReadAt_eq {off : ℤ} (hb : b = p ++ mid ++ q) (hoff : off = p.length)
    (hn : n = mid.length) : fileReadAt b n off = .ok mid := by
  subst hb hoff hn
  unfold fileReadAt
  rw [if_pos (by simp), Int.toNat_natCast, List.append_assoc, List.drop_left]
  simp

end

/-! ## What panics -/

section

variable {α β : Type} {b : Bytes} {i j w : ℕ}

/-- The number at `b[i:i+w]`, where that is in range. -/
def field (b : Bytes) (i w : ℕ) : ℕ := beNat ((b.drop i).take w)

theorem slice_of_le (hij : i ≤ j) (hj : j ≤ b.length) :
    slice b i j = .ok ((b.drop i).take (j - i)) := if_pos ⟨hij, hj⟩

theorem slice_of_lt (hj : b.length < j) : slice b i j = .error .panic :=
  if_neg fun h => by omega

theorem fieldAt_of_le (h : i + w ≤ b.length) : fieldAt b i w = .ok (field b i w) := by
  unfold fieldAt
  rw [slice_of_le (by omega) h, Nat.add_sub_cancel_left]
  rfl

theorem fieldAt_of_lt (h : b.length < i + w) : fieldAt b i w = .error .panic := by
  unfold fieldAt
  rw [slice_of_lt h]
  rfl

/-- A field holds less than its width. -/
theorem field_lt (b : Bytes) (i w : ℕ) : field b i w < 256 ^ w := by
  have hlt := foldl_lt ((b.drop i).take w) 0
  rw [zero_add, one_mul] at hlt
  exact hlt.trans_le (Nat.pow_le_pow_right (by decide) (List.length_take_le _ _))

end

end TftAnalytics

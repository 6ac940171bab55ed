import TftAnalytics.Common.Bytes
/-!
# Common — percent-encoding

Bytes that are not safe are escaped as `%` and two digits. An encoding that
escapes `%` itself is undone by decoding, and adds no byte that a path is
cut at.
-/

namespace TftAnalytics

namespace Percent

/-- An upper-case hexadecimal digit. -/
def hexDigit (n : ℕ) : UInt8 := UInt8.ofNat (if n < 10 then 48 + n else 55 + n)

/-- What a digit stands for. -/
def unhex (b : UInt8) : Option ℕ :=
  if 48 ≤ b.toNat ∧ b.toNat ≤ 57 then some (b.toNat - 48)
  else if 65 ≤ b.toNat ∧ b.toNat ≤ 70 then some (b.toNat - 55)
  else if 97 ≤ b.toNat ∧ b.toNat ≤ 102 then some (b.toNat - 87)
  else none

/-- A byte as `%XX`. -/
def escape (b : UInt8) : Bytes := [37, hexDigit (b.toNat / 16), hexDigit (b.toNat % 16)]

/-- The encoding that leaves the safe bytes. -/
def encode (safe : UInt8 → Bool) (s : Bytes) : Bytes :=
  s.flatMap fun b => if safe b then [b] else escape b

/-- Decoding; a `%` without two digits stands for itself. -/
def decode : Bytes → Bytes
  | [] => []
  | [b] => [b]
  | [b, c] => [b, c]
  | b :: h :: l :: rest =>
    match b == 37, unhex h, unhex l with
    | true, some x, some y => UInt8.ofNat (16 * x + y) :: decode rest
    | _, _, _ => b :: decode (h :: l :: rest)

theorem unhex_hexDigit {n : ℕ} (h : n < 16) : unhex (hexDigit n) = some n := by
  have hall : ∀ n < 16, unhex (hexDigit n) = some n := by decide
  exact hall n h

/-- A byte other than `%` stands for itself. -/
theorem decode_cons {b : UInt8} (h : b ≠ 37) (s : Bytes) : decode (b :: s) = b :: decode s := by
  have hb : (b == 37) = false := beq_false_of_ne h
  rcases s with _ | ⟨c, _ | ⟨d, s⟩⟩
  · rfl
  · rfl
  · simp only [decode, hb]

/-- **An escaped byte is read back.** -/
theorem decode_escape (b : UInt8) (s : Bytes) : decode (escape b ++ s) = b :: decode s := by
  have hb := b.toNat_lt
  have hcode : UInt8.ofNat (16 * (b.toNat / 16) + b.toNat % 16) = b := by
    rw [Nat.div_add_mod, UInt8.ofNat_toNat]
  show decode (37 :: hexDigit (b.toNat / 16) :: hexDigit (b.toNat % 16) :: s) = _
  simp only [decode, beq_self_eq_true, unhex_hexDigit (show b.toNat / 16 < 16 by omega),
    unhex_hexDigit (show b.toNat % 16 < 16 by omega), hcode]

variable {safe : UInt8 → Bool}

/-- **The round trip.** -/
theorem decode_encode (h : safe 37 = false) (s : Bytes) : decode (encode safe s) = s := by
  induction s with
  | nil => rfl
  | cons b s ih =>
    have hcons : encode safe (b :: s) = (if safe b then [b] else escape b) ++ encode safe s := rfl
    rw [hcons]
    split_ifs with hb
    · have hne : b ≠ 37 := by
        rintro rfl
        rw [h] at hb
        cases hb
      rw [List.singleton_append, decode_cons hne, ih]
    · rw [decode_escape, ih]

/-- The bytes of an escape. -/
def isEscape (b : UInt8) : Bool := b = 37 || (unhex b).isSome

/-- **What an encoding is made of.** -/
theorem mem_encode {s : Bytes} {b : UInt8} (h : b ∈ encode safe s) :
    (b ∈ s ∧ safe b = true) ∨ isEscape b = true := by
  obtain ⟨c, hc, hb⟩ := List.mem_flatMap.mp h
  split_ifs at hb with hsafe
  · obtain rfl := List.mem_singleton.mp hb
    exact .inl ⟨hc, hsafe⟩
  · have hlt := c.toNat_lt
    refine .inr ?_
    rcases List.mem_cons.mp hb with rfl | hb
    · decide
    · unfold isEscape
      rcases List.mem_cons.mp hb with rfl | hb
      · simp [unhex_hexDigit (show c.toNat / 16 < 16 by omega)]
      · obtain rfl := List.mem_singleton.mp hb
        simp [unhex_hexDigit (show c.toNat % 16 < 16 by omega)]

/-- So a byte that is in no escape comes from the string. -/
theorem not_mem_encode {s : Bytes} {b : UInt8} (hs : b ∉ s) (hb : isEscape b = false) :
    b ∉ encode safe s := by
  intro h
  rcases mem_encode h with ⟨hmem, -⟩ | hescape
  · exact hs hmem
  · rw [hb] at hescape
    cases hescape

end Percent

end TftAnalytics

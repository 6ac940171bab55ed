import TftAnalytics.Metastore.Model.TableFile
import TftAnalytics.Metastore.Helpers.Bloom
import TftAnalytics.Metastore.Helpers.Fnv
/-!
# Metastore — what a parser of tables may trust

Helper layer. Every step of `openSSTable` is a read at a position the bytes
give: it stands in range and is what it is, or it is a panic. So is every
allocation, by whether there is room for it. The one question that is not
about positions or room is which bits a key asks for, and as every hash
occurs, a filter with bits beyond its words has a key that asks for one of
them.
-/

namespace TftAnalytics

namespace Metastore

/-! ## Filters -/

section

variable {f : BloomFilter}

/-- A filter that is asked for no bit, or has all bits it is asked for. -/
def BloomFilter.Covered (f : BloomFilter) : Prop := f.k = 0 ∨ f.WellSized

theorem BloomFilter.Covered.mayContain (h : f.Covered) (P : BloomParams) (key : GoString) :
    ∃ b, f.mayContain P key = .ok b := by
  rcases h with hk | hsized
  · refine ⟨true, ?_⟩
    unfold BloomFilter.mayContain BloomFilter.indices
    rw [hk]
    rfl
  · exact hsized.mayContain_isOk key

/-- **Any other filter has a key it panics on**: for the first of its bits
a key may ask for any bit below `m`. -/
theorem BloomFilter.exists_panic (optimalM : ℕ → UInt64) (optimalK : ℕ → UInt32)
    (h : ¬ f.Covered) :
    ∃ key, f.mayContain (.ofSizes optimalM optimalK) key = .error .panic := by
  obtain ⟨hk, hsized⟩ := not_or.mp h
  obtain ⟨k, hk⟩ : ∃ k, f.k.toNat = k + 1 :=
    Nat.exists_eq_succ_of_ne_zero fun h0 => hk (UInt32.toNat_inj.mp h0)
  by_cases hm : f.m = 0
  · refine ⟨[], ?_⟩
    unfold BloomFilter.mayContain BloomFilter.indices
    rw [hk, List.range_succ_eq_map, List.mapM_cons, if_pos hm]
    rfl
  · have hpos : 0 < f.m.toNat := Nat.pos_of_ne_zero fun h0 => hm (UInt64.toNat_inj.mp h0)
    have hwords : 64 * f.bits.length < f.m.toNat :=
      not_le.mp fun hcovers => hsized ⟨hpos, hcovers⟩
    have hm64 := f.m.toNat_lt
    -- a key whose first hash is the first bit beyond the words
    obtain ⟨key, hkey⟩ := fnv1a_surjective (UInt64.ofNat (64 * f.bits.length))
    refine ⟨key, ?_⟩
    have hfirst : ((fnv1a key + UInt64.ofNat 0 * fnv1a (salt ++ key)) % f.m).toNat
        = 64 * f.bits.length := by
      rw [hkey, UInt64.toNat_mod, UInt64.toNat_add, UInt64.toNat_mul, UInt64.toNat_ofNat']
      show (_ + 0 * _ % _) % 2 ^ 64 % _ = _
      rw [zero_mul, Nat.zero_mod, add_zero, Nat.mod_mod, Nat.mod_eq_of_lt (hwords.trans hm64),
        Nat.mod_eq_of_lt hwords]
    have hword : BloomFilter.word ((fnv1a key + UInt64.ofNat 0 * fnv1a (salt ++ key)) % f.m)
        = f.bits.length := by
      unfold BloomFilter.word
      rw [UInt64.toNat_div, hfirst]
      exact Nat.mul_div_cancel_left _ (by decide)
    unfold BloomFilter.mayContain
    rw [BloomFilter.indices_of_ne_zero hm, ok_bind]
    unfold BloomFilter.positions
    rw [hk, List.range_succ_eq_map, List.map_cons]
    exact BloomFilter.allSet_of_missing (hword ▸ le_rfl) _

/-- **A filter in memory answers every key just when it is covered.** -/
theorem BloomFilter.covered_iff (optimalM : ℕ → UInt64) (optimalK : ℕ → UInt32) :
    (∀ key, f.mayContain (.ofSizes optimalM optimalK) key ≠ .error .panic) ↔ f.Covered := by
  constructor
  · intro hall
    by_contra h
    obtain ⟨key, hkey⟩ := BloomFilter.exists_panic optimalM optimalK h
    exact hall key hkey
  · intro h key hpanic
    obtain ⟨b, hb⟩ := h.mayContain (.ofSizes optimalM optimalK) key
    rw [hpanic] at hb
    cases hb

/-- **And in the memory of a process**, when there is room for the
positions of a key. -/
theorem BloomFilter.answers_iff (rt : Runtime) (optimalM : ℕ → UInt64) (optimalK : ℕ → UInt32) :
    (∀ key, f.mayContainIn rt (.ofSizes optimalM optimalK) key ≠ .error .panic) ↔
      rt.hasRoom (.words f.k.toNat) ∧ f.Covered := by
  unfold BloomFilter.mayContainIn
  by_cases hroom : rt.hasRoom (.words f.k.toNat)
  · rw [Runtime.make_of_room hroom, and_iff_right hroom]
    exact BloomFilter.covered_iff optimalM optimalK
  · rw [Runtime.make_of_full hroom]
    exact iff_of_false (fun hall => hall [] rfl) fun h => hroom h.1

end

/-! ## The sections -/

section

variable {rt : Runtime} {P : BloomParams} {b : Bytes} {n p : ℕ}

/-- The filter section: shorter than its header, or as long as the number
of words in it says, with room for them. -/
def WordsFit (rt : Runtime) (b : Bytes) : Prop :=
  b.length < 16 ∨ (rt.hasRoom (.words (field b 12 4)) ∧ 16 + 8 * field b 12 4 ≤ b.length)

theorem readWords_of_le (h : p + 8 * n ≤ b.length) :
    ∃ words, readWords b n p = .ok words ∧ words.length = n := by
  induction n generalizing p with
  | zero => exact ⟨[], rfl, rfl⟩
  | succ n ih =>
    obtain ⟨words, hwords, hlen⟩ := ih (p := p + 8) (by omega)
    refine ⟨UInt64.ofNat (field b p 8) :: words, ?_, by rw [List.length_cons, hlen]⟩
    rw [readWords, fieldAt_of_le (by omega), ok_bind, hwords]
    rfl

theorem readWords_of_lt (hp : p ≤ b.length) (h : b.length < p + 8 * n) :
    readWords b n p = .error .panic := by
  induction n generalizing p with
  | zero => omega
  | succ n ih =>
    rw [readWords]
    by_cases hfield : p + 8 ≤ b.length
    · rw [fieldAt_of_le hfield, ok_bind, ih hfield (by omega)]
      rfl
    · rw [fieldAt_of_lt (by omega)]
      rfl

/-- A long enough filter section has a header. -/
theorem unmarshalBloom_header (h : 16 ≤ b.length) :
    unmarshalBloom P b = readWords b (field b 12 4) 16 >>= fun bits =>
      pure { bits := bits, m := UInt64.ofNat (field b 0 8), k := UInt32.ofNat (field b 8 4) } := by
  unfold unmarshalBloom
  rw [if_neg (by omega), fieldAt_of_le (by omega), ok_bind, fieldAt_of_le (by omega), ok_bind,
    fieldAt_of_le (by omega), ok_bind]

theorem unmarshalBloomIn_of_not (h : ¬ WordsFit rt b) :
    unmarshalBloomIn rt P b = .error .panic := by
  obtain ⟨hlong, hwords⟩ := not_or.mp h
  unfold unmarshalBloomIn bloomWords
  rw [if_neg hlong]
  by_cases hroom : rt.hasRoom (.words (field b 12 4))
  · have hlt : b.length < 16 + 8 * field b 12 4 := not_le.mp fun hle => hwords ⟨hroom, hle⟩
    rw [Runtime.make_of_room hroom, ok_bind, unmarshalBloom_header (by omega),
      readWords_of_lt (by omega) hlt]
    rfl
  · rw [Runtime.make_of_full hroom]
    rfl

/-- The bits of the filter: shorter than a header, or there is room for the
positions of a key, and they are asked for by no hash, or all there. -/
def BitsFit (rt : Runtime) (b : Bytes) : Prop :=
  b.length < 16 ∨ (rt.hasRoom (.words (field b 8 4)) ∧
    (field b 8 4 = 0 ∨ (0 < field b 0 8 ∧ field b 0 8 ≤ 64 * field b 12 4)))

/-- The filter of one element: a word, and at most a dozen hashes. -/
theorem unmarshalBloomIn_short (rt : Runtime) (hsize : P.optimalM 1 = 64) (hk : P.optimalK 1 ≤ 12)
    (hshort : b.length < 16) :
    ∃ flt, unmarshalBloomIn rt P b = .ok flt ∧ rt.hasRoom (.words flt.k.toNat) ∧ flt.Covered := by
  have hm : P.optimalM (max 1 1) = 64 := hsize
  have hwrap : (P.optimalM (max 1 1)).toNat + 63 < 2 ^ 64 := by rw [hm]; decide
  have hone : (newBloomFilter P 1).bits.length = 1 := by
    rw [BloomFilter.length_bits_newBloomFilter hwrap, hm]
    rfl
  refine ⟨newBloomFilter P 1, ?_, rt.small _ (UInt32.le_iff_toNat_le.mp hk), .inr ?_⟩
  · unfold unmarshalBloomIn bloomWords unmarshalBloom
    rw [if_pos hshort, if_pos hshort, hone, Runtime.make_of_room (rt.small 1 (by decide))]
    rfl
  · exact BloomFilter.wellSized_newBloomFilter (by rw [hm]; decide) hwrap

/-- **A section with its words is a filter**, which answers where the bits
are there. -/
theorem unmarshalBloomIn_of_fits (hsize : P.optimalM 1 = 64) (hk : P.optimalK 1 ≤ 12)
    (h : WordsFit rt b) :
    ∃ flt, unmarshalBloomIn rt P b = .ok flt ∧
      (rt.hasRoom (.words flt.k.toNat) ∧ flt.Covered ↔ BitsFit rt b) := by
  by_cases hshort : b.length < 16
  · obtain ⟨flt, hflt, hanswers⟩ := unmarshalBloomIn_short rt hsize hk hshort
    exact ⟨flt, hflt, fun _ => .inl hshort, fun _ => hanswers⟩
  · obtain ⟨hroom, hlong⟩ := h.resolve_left hshort
    obtain ⟨words, hwords, hlen⟩ := readWords_of_le hlong
    refine ⟨⟨words, UInt64.ofNat (field b 0 8), UInt32.ofNat (field b 8 4)⟩, ?_, ?_⟩
    · unfold unmarshalBloomIn bloomWords
      rw [if_neg hshort, Runtime.make_of_room hroom, ok_bind, unmarshalBloom_header (by omega),
        hwords]
      rfl
    · have hm : (UInt64.ofNat (field b 0 8)).toNat = field b 0 8 :=
        (UInt64.toNat_ofNat' ..).trans (Nat.mod_eq_of_lt (field_lt b 0 8))
      have hk : (UInt32.ofNat (field b 8 4)).toNat = field b 8 4 :=
        (UInt32.toNat_ofNat' ..).trans (Nat.mod_eq_of_lt (field_lt b 8 4))
      have hzero : UInt32.ofNat (field b 8 4) = 0 ↔ field b 8 4 = 0 := by
        rw [← UInt32.toNat_inj, hk]
        rfl
      have hsized : BloomFilter.WellSized ⟨words, UInt64.ofNat (field b 0 8),
          UInt32.ofNat (field b 8 4)⟩ ↔ 0 < field b 0 8 ∧ field b 0 8 ≤ 64 * field b 12 4 := by
        constructor
        · rintro ⟨hpos, hcov⟩
          exact ⟨hm ▸ hpos, by rw [← hm, ← hlen]; exact hcov⟩
        · rintro ⟨hpos, hcov⟩
          exact ⟨hm.symm ▸ hpos, by rw [← hlen] at hcov; exact hm.symm ▸ hcov⟩
      unfold BloomFilter.Covered BitsFit
      rw [hzero, hsized, hk, or_iff_right hshort]

/-- The rows of the index section, from byte `p` on, with `n` to go: each
key and the offset behind it in range. -/
def RowsFit (b : Bytes) : ℕ → ℕ → Prop
  | 0, _ => True
  | n + 1, p => p + 4 + field b p 4 + 8 ≤ b.length ∧ RowsFit b n (p + 4 + field b p 4 + 8)

/-- The index section: a number of rows, with room for them, and the rows. -/
def IndexFits (rt : Runtime) (b : Bytes) : Prop :=
  4 ≤ b.length ∧ rt.hasRoom (.map (field b 0 4)) ∧ rt.hasRoom (.strings (field b 0 4)) ∧
    RowsFit b (field b 0 4) 4

open TableFile

theorem readIndex_of_rowsFit (h : RowsFit b n p) (index : Index) (keys : List GoString) :
    ∃ r, readIndex b n p index keys = .ok r := by
  induction n generalizing p index keys with
  | zero => exact ⟨_, rfl⟩
  | succ n ih =>
    obtain ⟨hrow, hrest⟩ := h
    rw [readIndex, fieldAt_of_le (by omega), ok_bind, slice_of_le (by omega) (by omega), ok_bind,
      fieldAt_of_le hrow, ok_bind]
    exact ih hrest _ _

theorem readIndex_of_not (h : ¬ RowsFit b n p) (index : Index) (keys : List GoString) :
    readIndex b n p index keys = .error .panic := by
  induction n generalizing p index keys with
  | zero => exact absurd trivial h
  | succ n ih =>
    rw [readIndex]
    by_cases hlen : p + 4 ≤ b.length
    · rw [fieldAt_of_le hlen, ok_bind]
      by_cases hkey : p + 4 + field b p 4 ≤ b.length
      · rw [slice_of_le (by omega) hkey, ok_bind]
        by_cases hoff : p + 4 + field b p 4 + 8 ≤ b.length
        · rw [fieldAt_of_le hoff, ok_bind]
          exact ih (fun hrest => h ⟨hoff, hrest⟩) _ _
        · rw [fieldAt_of_lt (by omega)]
          rfl
      · rw [slice_of_lt (by omega)]
        rfl
    · rw [fieldAt_of_lt (by omega)]
      rfl

end

end Metastore

end TftAnalytics

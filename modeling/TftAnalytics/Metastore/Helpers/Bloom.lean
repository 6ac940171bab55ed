import TftAnalytics.Metastore.Model.Bloom
/-!
# Metastore — Bloom filters keep what was added

Helper layer. A filter whose words cover its bits never panics; `Add` sets
the bits of its key and clears none, so a key once added is always
answered with yes; and a filter is read back from its encoding as it was.
-/

namespace TftAnalytics

namespace Metastore

/-! ## Bits -/

/-- A bit stands in the array and is set. -/
def BitSet (bits : List UInt64) (idx : UInt64) : Prop :=
  ∃ w, bits[BloomFilter.word idx]? = some w ∧ w &&& bitMask idx ≠ 0

theorem bitMask_ne_zero (idx : UInt64) : bitMask idx ≠ 0 := by
  intro h
  have h64 : (idx % 64).toNat < 64 := by
    rw [UInt64.toNat_mod]
    exact Nat.mod_lt _ (by decide)
  have hpow : 2 ^ (idx % 64).toNat < 2 ^ 64 := Nat.pow_lt_pow_right (by omega) h64
  have := congrArg UInt64.toNat h
  unfold bitMask at this
  rw [UInt64.toNat_shiftLeft, Nat.mod_eq_of_lt h64, Nat.shiftLeft_eq] at this
  have hpos : 0 < 2 ^ (idx % 64).toNat := Nat.two_pow_pos _
  have hone : (1 : UInt64).toNat = 1 := rfl
  rw [hone, one_mul, Nat.mod_eq_of_lt hpow] at this
  simp at this

theorem or_and_ne_zero {w v b : UInt64} (h : w &&& b ≠ 0 ∨ v &&& b ≠ 0) :
    (w ||| v) &&& b ≠ 0 := by
  have hdistrib : (w ||| v) &&& b = (w &&& b) ||| (v &&& b) := by
    apply UInt64.toBitVec_inj.mp
    simp only [UInt64.toBitVec_and, UInt64.toBitVec_or]
    ext i hi
    simp [Bool.and_or_distrib_right]
  rw [hdistrib, ne_eq, UInt64.or_eq_zero_iff]
  tauto

namespace BloomFilter

/-- **Setting a bit sets it, and clears none.** -/
theorem setBit_spec {bits : List UInt64} {idx : UInt64} (h : word idx < bits.length) :
    ∃ bits', setBit bits idx = .ok bits' ∧ bits'.length = bits.length ∧ BitSet bits' idx ∧
      ∀ j, BitSet bits j → BitSet bits' j := by
  obtain ⟨w, hw⟩ : ∃ w, bits[word idx]? = some w := ⟨_, List.getElem?_eq_getElem h⟩
  have hself : BitSet (bits.set (word idx) (w ||| bitMask idx)) idx := by
    refine ⟨w ||| bitMask idx, by rw [List.getElem?_set_self h], or_and_ne_zero (.inr ?_)⟩
    rw [UInt64.and_self]
    exact bitMask_ne_zero idx
  refine ⟨bits.set (word idx) (w ||| bitMask idx), ?_, by simp, hself, ?_⟩
  · unfold setBit
    rw [hw]
  · rintro j ⟨v, hv, hvj⟩
    -- another bit of the same word stays under the disjunction
    by_cases hword : word idx = word j
    · rw [← hword, hw, Option.some.injEq] at hv
      subst hv
      refine ⟨w ||| bitMask idx, ?_, or_and_ne_zero (.inl hvj)⟩
      rw [← hword, List.getElem?_set_self h]
    · exact ⟨v, by rw [List.getElem?_set_ne hword, hv], hvj⟩

theorem foldlM_setBit {n : ℕ} {idxs : List UInt64} (hidx : ∀ idx ∈ idxs, word idx < n)
    {bits : List UInt64} (hlen : bits.length = n) :
    ∃ bits', idxs.foldlM setBit bits = .ok bits' ∧ bits'.length = n ∧
      (∀ idx ∈ idxs, BitSet bits' idx) ∧ ∀ j, BitSet bits j → BitSet bits' j := by
  induction idxs generalizing bits with
  | nil => exact ⟨bits, rfl, hlen, by simp, fun j hj => hj⟩
  | cons idx idxs ih =>
    obtain ⟨hhead, htail⟩ := List.forall_mem_cons.mp hidx
    obtain ⟨bits₁, h₁, hlen₁, hset₁, hkeep₁⟩ := setBit_spec (hlen ▸ hhead)
    obtain ⟨bits₂, h₂, hlen₂, hset₂, hkeep₂⟩ := ih htail (hlen₁.trans hlen)
    refine ⟨bits₂, ?_, hlen₂, ?_, fun j hj => hkeep₂ j (hkeep₁ j hj)⟩
    · rw [List.foldlM_cons, h₁]
      exact h₂
    · rintro j (_ | ⟨_, hj⟩)
      · exact hkeep₂ _ hset₁
      · exact hset₂ j hj

theorem allSet_eq_true {bits : List UInt64} {idxs : List UInt64}
    (h : ∀ idx ∈ idxs, BitSet bits idx) : allSet bits idxs = .ok true := by
  induction idxs with
  | nil => rfl
  | cons idx idxs ih =>
    obtain ⟨⟨w, hw, hbit⟩, htail⟩ := List.forall_mem_cons.mp h
    unfold allSet
    rw [hw]
    simp only [if_neg hbit, ih htail]

theorem allSet_isOk {bits : List UInt64} {idxs : List UInt64}
    (h : ∀ idx ∈ idxs, word idx < bits.length) : ∃ b, allSet bits idxs = .ok b := by
  induction idxs with
  | nil => exact ⟨true, rfl⟩
  | cons idx idxs ih =>
    obtain ⟨hhead, htail⟩ := List.forall_mem_cons.mp h
    unfold allSet
    simp only [List.getElem?_eq_getElem hhead]
    split_ifs
    · exact ⟨false, rfl⟩
    · exact ih htail

/-- A bit beyond the words is a panic. -/
theorem allSet_of_missing {bits : List UInt64} {idx : UInt64} (h : bits.length ≤ word idx)
    (idxs : List UInt64) : allSet bits (idx :: idxs) = .error .panic := by
  unfold allSet
  rw [List.getElem?_eq_none h]

/-! ## Filters -/

/-- A filter whose words cover its bits. -/
structure WellSized (f : BloomFilter) : Prop where
  m_pos : 0 < f.m.toNat
  covers : f.m.toNat ≤ 64 * f.bits.length

variable {f : BloomFilter} {P : BloomParams} {key : GoString}

/-- The bit positions of a key. -/
def positions (f : BloomFilter) (P : BloomParams) (key : GoString) : List UInt64 :=
  (List.range f.k.toNat).map fun i => (P.h1 key + UInt64.ofNat i * P.h2 key) % f.m

/-- A filter that answers yes for a key. -/
def Holds (f : BloomFilter) (P : BloomParams) (key : GoString) : Prop :=
  ∀ idx ∈ f.positions P key, BitSet f.bits idx

theorem indices_of_ne_zero (hm : f.m ≠ 0) : f.indices P key = .ok (f.positions P key) := by
  unfold BloomFilter.indices positions
  simp only [hm, if_false]
  exact List.mapM_pure

theorem WellSized.indices (h : f.WellSized) : f.indices P key = .ok (f.positions P key) := by
  refine indices_of_ne_zero fun hm => ?_
  have := h.m_pos
  rw [hm] at this
  exact absurd this (by decide)

/-- No position falls outside the array. -/
theorem WellSized.word_lt (h : f.WellSized) {idx : UInt64} (hidx : idx ∈ f.positions P key) :
    word idx < f.bits.length := by
  obtain ⟨i, -, rfl⟩ := List.mem_map.mp hidx
  have hmod : ((P.h1 key + UInt64.ofNat i * P.h2 key) % f.m).toNat < f.m.toNat := by
    rw [UInt64.toNat_mod]
    exact Nat.mod_lt _ h.m_pos
  have hcov := h.covers
  unfold word
  rw [UInt64.toNat_div]
  show _ / 64 < _
  omega

/-- **`Add` makes the filter hold its key, and it keeps the others.** -/
theorem WellSized.add (h : f.WellSized) (P : BloomParams) (key : GoString) :
    ∃ f', f.add P key = .ok f' ∧ f'.WellSized ∧ f'.k = f.k ∧ f'.m = f.m ∧
      f'.bits.length = f.bits.length ∧ f'.Holds P key ∧
      ∀ key', f.Holds P key' → f'.Holds P key' := by
  obtain ⟨bits, hbits, hlen, hset, hkeep⟩ :=
    foldlM_setBit (fun idx (hidx : idx ∈ f.positions P key) => h.word_lt hidx) rfl
  refine ⟨{ f with bits := bits }, ?_, ⟨h.m_pos, hlen ▸ h.covers⟩, rfl, rfl, hlen, hset,
    fun key' hkey' idx hidx => hkeep idx (hkey' idx hidx)⟩
  unfold BloomFilter.add
  rw [h.indices, ok_bind, hbits]
  rfl

/-- **No false negatives.** -/
theorem WellSized.mayContain_of_holds (h : f.WellSized) (hkey : f.Holds P key) :
    f.mayContain P key = .ok true := by
  unfold mayContain
  rw [h.indices]
  exact allSet_eq_true hkey

/-- And no panic, on any key. -/
theorem WellSized.mayContain_isOk (h : f.WellSized) (key : GoString) :
    ∃ b, f.mayContain P key = .ok b := by
  unfold mayContain
  rw [h.indices]
  exact allSet_isOk fun _ hidx => h.word_lt hidx

/-- The words of a new filter, unless its number of bits is so close to
`2 ^ 64` that the rounding up to words wraps. -/
theorem length_bits_newBloomFilter {n : ℕ}
    (hwrap : (P.optimalM (max n 1)).toNat + 63 < 2 ^ 64) :
    (newBloomFilter P n).bits.length = ((P.optimalM (max n 1)).toNat + 63) / 64 := by
  show (List.replicate _ _).length = _
  rw [List.length_replicate, UInt64.toNat_div, UInt64.toNat_add]
  show ((P.optimalM (max n 1)).toNat + 63) % 2 ^ 64 / 64 = _
  rw [Nat.mod_eq_of_lt hwrap]

/-- A new filter is well sized, where that does not happen. -/
theorem wellSized_newBloomFilter {n : ℕ} (hpos : 0 < (P.optimalM (max n 1)).toNat)
    (hwrap : (P.optimalM (max n 1)).toNat + 63 < 2 ^ 64) : (newBloomFilter P n).WellSized where
  m_pos := hpos
  covers := by
    rw [length_bits_newBloomFilter hwrap]
    show (P.optimalM (max n 1)).toNat ≤ _
    omega

/-! ## Encoding -/

theorem readWords_eq (words : List UInt64) {buf pre post : Bytes}
    (hbuf : buf = pre ++ (words.flatMap fun v => beBytes 8 v.toNat) ++ post) :
    readWords buf words.length pre.length = .ok words := by
  induction words generalizing pre with
  | nil => rfl
  | cons v words ih =>
    have hrest : buf = (pre ++ beBytes 8 v.toNat)
        ++ (words.flatMap fun v => beBytes 8 v.toNat) ++ post := by
      rw [hbuf, List.flatMap_cons]
      simp only [List.append_assoc]
    have hhead : fieldAt buf pre.length 8 = .ok v.toNat :=
      fieldAt_eq (hrest.trans (List.append_assoc _ _ _)) rfl v.toNat_lt
    have htail := ih hrest
    rw [List.length_append, length_beBytes] at htail
    rw [List.length_cons, readWords, hhead, ok_bind, htail, ok_bind, UInt64.ofNat_toNat]
    rfl

/-- **What is read back** of a filter: the length field keeps the number of
its words modulo `2 ^ 32`, and so many of them are read. -/
theorem unmarshalBloom_marshal_take (P : BloomParams) (f : BloomFilter) :
    unmarshalBloom P f.marshal
      = .ok { f with bits := f.bits.take (f.bits.length % 2 ^ 32) } := by
  set kept := f.bits.take (f.bits.length % 2 ^ 32) with hkept
  set words := kept.flatMap fun v => beBytes 8 v.toNat with hwords
  set rest := (f.bits.drop (f.bits.length % 2 ^ 32)).flatMap fun v => beBytes 8 v.toNat with hrest
  have hmarshal : f.marshal = beBytes 8 f.m.toNat ++ beBytes 4 f.k.toNat
      ++ beBytes 4 f.bits.length ++ (words ++ rest) := by
    rw [hwords, hrest, hkept, ← List.flatMap_append, List.take_append_drop]
    rfl
  -- the bytes, cut around each of the fields in turn
  have hm : f.marshal = [] ++ beBytes 8 f.m.toNat
      ++ (beBytes 4 f.k.toNat ++ beBytes 4 f.bits.length ++ (words ++ rest)) := by
    rw [hmarshal]
    simp
  have hk : f.marshal = beBytes 8 f.m.toNat ++ beBytes 4 f.k.toNat
      ++ (beBytes 4 f.bits.length ++ (words ++ rest)) := by
    rw [hmarshal]
    simp
  have hn : f.marshal = (beBytes 8 f.m.toNat ++ beBytes 4 f.k.toNat) ++ beBytes 4 f.bits.length
      ++ (words ++ rest) := hmarshal
  have hbits : f.marshal
      = (beBytes 8 f.m.toNat ++ beBytes 4 f.k.toNat ++ beBytes 4 f.bits.length) ++ words
        ++ rest := by
    rw [hmarshal]
    simp
  have hlong : ¬ f.marshal.length < 16 := by
    rw [hn]
    simp only [List.length_append, length_beBytes]
    omega
  have hread := readWords_eq kept hbits
  have hlen : kept.length = f.bits.length % 2 ^ 32 := by
    rw [hkept, List.length_take]
    have := Nat.mod_le f.bits.length (2 ^ 32)
    omega
  rw [hlen] at hread
  simp only [List.length_append, length_beBytes] at hread
  unfold unmarshalBloom
  rw [if_neg hlong, fieldAt_eq hm (by simp) f.m.toNat_lt, ok_bind,
    fieldAt_eq hk (by simp) f.k.toNat_lt, ok_bind, fieldAt_beBytes hn (by simp), ok_bind]
  show readWords f.marshal (f.bits.length % 2 ^ 32) 16 >>= _ = _
  rw [hread, ok_bind, UInt64.ofNat_toNat, UInt32.ofNat_toNat]
  rfl

/-- **A filter reads back as it was**, if its length field holds the
number of its words. -/
theorem unmarshalBloom_marshal (P : BloomParams) (hlen : f.bits.length < 2 ^ 32) :
    unmarshalBloom P f.marshal = .ok f := by
  rw [unmarshalBloom_marshal_take, Nat.mod_eq_of_lt hlen, List.take_length]

end BloomFilter

end Metastore

end TftAnalytics

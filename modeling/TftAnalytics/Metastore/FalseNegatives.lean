import TftAnalytics.Metastore.Helpers.Bloom
/-!
# Metastore — no false negatives

A filter with room for its bits says yes to every key added to it, and no
position falls outside its words. Its encoding keeps the number of words
in 32 bits, so the filter that is read back is the same one exactly below
`2 ^ 32` words.
-/

namespace TftAnalytics

namespace Metastore

namespace BloomFilter

/-- A filter of one bit and one hash function at least, its bits in as many
words as they need. -/
structure Shaped (f : BloomFilter) : Prop where
  m_pos : 1 ≤ f.m.toNat
  k_pos : 1 ≤ f.k.toNat
  words : f.bits.length = (f.m.toNat + 63) / 64

/-- `Add` of one key after another. -/
def addAll (f : BloomFilter) (P : BloomParams) (keys : List GoString) :
    Except Fault BloomFilter :=
  keys.foldlM (fun f key => f.add P key) f

/-- **No false negatives**: whatever the hashes and the keys that are
added, they are added, each of them is answered with yes, the positions of
every key fall inside the words, and what is read back of the encoding
answers every key alike. -/
def NoFalseNegatives (f : BloomFilter) : Prop :=
  ∀ (P : BloomParams) (keys : List GoString), ∃ f', f.addAll P keys = .ok f' ∧
    (∀ key ∈ keys, f'.mayContain P key = .ok true) ∧
    (∀ key, ∃ idxs, f'.indices P key = .ok idxs ∧ ∀ idx ∈ idxs, word idx < f'.bits.length) ∧
    ∃ g, unmarshalBloom P f'.marshal = .ok g ∧ ∀ key, g.mayContain P key = f'.mayContain P key

variable {f : BloomFilter} {P : BloomParams}

theorem Shaped.wellSized (h : f.Shaped) : f.WellSized where
  m_pos := h.m_pos
  covers := by
    have := h.words
    omega

/-- **Later keys disturb no earlier one.** -/
theorem WellSized.addAll (h : f.WellSized) (P : BloomParams) (keys : List GoString) :
    ∃ f', f.addAll P keys = .ok f' ∧ f'.WellSized ∧ f'.bits.length = f.bits.length ∧
      (∀ key ∈ keys, f'.Holds P key) ∧ ∀ key, f.Holds P key → f'.Holds P key := by
  induction keys generalizing f with
  | nil => exact ⟨f, rfl, h, rfl, by simp, fun _ hkey => hkey⟩
  | cons key keys ih =>
    obtain ⟨f₁, hadd, hsized₁, -, -, hlen₁, hself, hkeep₁⟩ := h.add P key
    obtain ⟨f₂, hall, hsized₂, hlen₂, hheld, hkeep₂⟩ := ih hsized₁
    refine ⟨f₂, ?_, hsized₂, hlen₂.trans hlen₁, ?_, fun key' hkey' => hkeep₂ _ (hkeep₁ _ hkey')⟩
    · unfold BloomFilter.addAll
      rw [List.foldlM_cons, hadd]
      exact hall
    · rintro key' (_ | ⟨_, hkey'⟩)
      · exact hkeep₂ _ hself
      · exact hheld key' hkey'

theorem Shaped.noFalseNegatives (h : f.Shaped) (hlen : f.bits.length < 2 ^ 32) :
    f.NoFalseNegatives := by
  intro P keys
  obtain ⟨f', hadd, hsized, hlength, hheld, -⟩ := h.wellSized.addAll P keys
  refine ⟨f', hadd, fun key hkey => hsized.mayContain_of_holds (hheld key hkey),
    fun key => ⟨_, hsized.indices, fun idx hidx => hsized.word_lt hidx⟩, f', ?_, fun _ => rfl⟩
  exact unmarshalBloom_marshal P (hlength ▸ hlen)

/-! ## Too many words -/

/-- Hashes that send every key to the last bit. -/
def lastBit (f : BloomFilter) : BloomParams :=
  ⟨fun _ => f.m - 1, fun _ => 0, fun _ => 64, fun _ => 1⟩

theorem Shaped.toNat_last (h : f.Shaped) : (f.m - 1).toNat = f.m.toNat - 1 :=
  UInt64.toNat_sub_of_le _ _ (UInt64.le_iff_toNat_le.mpr h.m_pos)

theorem Shaped.positions_lastBit (h : f.Shaped) (key : GoString) :
    f.positions f.lastBit key = List.replicate f.k.toNat (f.m - 1) := by
  have hlast : (f.m - 1) % f.m = f.m - 1 := by
    apply UInt64.toNat_inj.mp
    rw [UInt64.toNat_mod, h.toNat_last, Nat.mod_eq_of_lt (by have := h.m_pos; omega)]
  refine List.eq_replicate_iff.mpr ⟨by simp [positions], fun idx hidx => ?_⟩
  obtain ⟨i, -, rfl⟩ := List.mem_map.mp hidx
  show (f.m - 1 + UInt64.ofNat i * 0) % f.m = _
  rw [UInt64.mul_zero, UInt64.add_zero, hlast]

/-- **A filter of too many words is cut short**, and a look at its last bit
panics once it is read back. -/
theorem Shaped.not_noFalseNegatives (h : f.Shaped) (hlen : 2 ^ 32 ≤ f.bits.length) :
    ¬ f.NoFalseNegatives := by
  intro hall
  obtain ⟨f', hadd, -, -, g, hread, hsame⟩ := hall f.lastBit []
  obtain rfl : f = f' := Except.ok.inj hadd
  rw [unmarshalBloom_marshal_take] at hread
  obtain rfl := Except.ok.inj hread
  obtain ⟨b, hok⟩ := h.wellSized.mayContain_isOk (P := f.lastBit) []
  obtain ⟨n, hk⟩ := Nat.exists_eq_add_of_le' h.k_pos
  have hm : f.m ≠ 0 := by
    intro hm
    have := h.m_pos
    rw [hm] at this
    exact absurd this (by decide)
  have hmissing : (f.bits.take (f.bits.length % 2 ^ 32)).length ≤ word (f.m - 1) := by
    have hmod := Nat.mod_lt f.bits.length (Nat.two_pow_pos 32)
    have hwords := h.words
    have hword : word (f.m - 1) = (f.m.toNat - 1) / 64 := by
      unfold word
      rw [UInt64.toNat_div, h.toNat_last]
      rfl
    rw [List.length_take, hword]
    omega
  set g : BloomFilter := { f with bits := f.bits.take (f.bits.length % 2 ^ 32) } with hg
  have hgm : g.m ≠ 0 := hm
  have hpanic : g.mayContain f.lastBit [] = .error .panic := by
    unfold mayContain
    rw [indices_of_ne_zero hgm, ok_bind]
    show allSet g.bits (f.positions f.lastBit []) = _
    rw [h.positions_lastBit, hk, List.replicate_succ]
    exact allSet_of_missing hmissing _
  rw [hsame, hok] at hpanic
  cases hpanic

/-- **No false negatives, exactly below `2 ^ 32` words.** -/
theorem noFalseNegatives_iff (f : BloomFilter) (h : f.Shaped) :
    f.NoFalseNegatives ↔ f.bits.length < 2 ^ 32 :=
  ⟨fun hall => not_le.mp fun hlen => h.not_noFalseNegatives hlen hall, h.noFalseNegatives⟩

/-- An empty filter of whole words. -/
def blank (words : ℕ) : BloomFilter :=
  { bits := List.replicate words 0, m := UInt64.ofNat (64 * words), k := 1 }

theorem shaped_blank {words : ℕ} (hpos : 1 ≤ words) (hlt : 64 * words < 2 ^ 64) :
    (blank words).Shaped := by
  have hm : (blank words).m.toNat = 64 * words := UInt64.toNat_ofNat_of_lt hlt
  refine ⟨by omega, le_rfl, ?_⟩
  rw [hm, blank, List.length_replicate]
  omega

/-- The smallest filter that `NewBloomFilter` makes. -/
theorem noFalseNegatives_one_word : (blank 1).NoFalseNegatives :=
  (noFalseNegatives_iff (blank 1) (shaped_blank (by decide) (by decide))).mpr (by decide)

/-- A filter of `2 ^ 38` bits does not read back. -/
theorem long_filter_fails :
    ∃ f : BloomFilter, f.Shaped ∧ f.m.toNat = 2 ^ 38 ∧ ¬ f.NoFalseNegatives := by
  have hshaped : (blank (2 ^ 32)).Shaped := shaped_blank (by decide) (by decide)
  refine ⟨blank (2 ^ 32), hshaped, UInt64.toNat_ofNat_of_lt (by decide), ?_⟩
  refine hshaped.not_noFalseNegatives ?_
  rw [blank, List.length_replicate]

end BloomFilter

end Metastore

end TftAnalytics

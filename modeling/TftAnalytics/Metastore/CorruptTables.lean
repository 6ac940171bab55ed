import TftAnalytics.Metastore.Helpers.Corrupt
/-!
# Metastore — tables nobody wrote

Whatever is found under the name of a table is opened. A file without the
magic number in its last eight bytes is an error, and skipped. Behind the
magic number the parser takes the bytes at their word: a length is what it
says, however large or negative, and the memory for it is taken before
anything is read; a count is followed by as many rows or words, and a
filter has the bits its modulus names. `Sound` is what has to be true of a
file, in the memory of a process, for none of that to be fatal, on opening
or later.
-/

namespace TftAnalytics

namespace Metastore

namespace TableFile

variable {rt : Runtime} {P : BloomParams} {f : Bytes}

/-! ## What a file says -/

/-- The last 40 bytes. -/
def footer (f : Bytes) : Bytes := f.drop (f.length - 40)

/-- A footer with the magic number. -/
def Recognized (f : Bytes) : Prop := 40 ≤ f.length ∧ field (footer f) 32 8 = ssTableMagic
  deriving Decidable

/-- The numbers of the footer, as the parser reads them. -/
def footerInt (f : Bytes) (i : ℕ) : ℤ := asInt64 (field (footer f) i 8)

/-- A number of bytes `make` has room for. -/
def Allocates (rt : Runtime) (n : ℤ) : Prop := 0 ≤ n ∧ rt.hasRoom (.bytes n.toNat)
  deriving Decidable

/-- A section that lies in the file. -/
def InFile (f : Bytes) (off n : ℤ) : Prop := 0 ≤ off ∧ (n = 0 ∨ off + n ≤ f.length)
  deriving Decidable

/-- Its bytes. -/
def sectionAt (f : Bytes) (off n : ℤ) : Bytes := (f.drop off.toNat).take n.toNat

/-- **A file that can be taken at its word**: behind the magic number, the
lengths of the sections can be allocated, up to the first that is not in
the file, and the sections hold what they count, with room for it. -/
def Sound (rt : Runtime) (f : Bytes) : Prop :=
  Recognized f → Allocates rt (footerInt f 8) ∧ (InFile f (footerInt f 0) (footerInt f 8) →
    Allocates rt (footerInt f 24) ∧ (InFile f (footerInt f 16) (footerInt f 24) →
      IndexFits rt (sectionAt f (footerInt f 0) (footerInt f 8)) ∧
      WordsFit rt (sectionAt f (footerInt f 16) (footerInt f 24)) ∧
      BitsFit rt (sectionAt f (footerInt f 16) (footerInt f 24))))

/-! ## Opening, step by step -/

theorem makeBytes_of_allocates {n : ℤ} (h : Allocates rt n) : rt.makeBytes n = .ok n.toNat :=
  if_pos h

theorem makeBytes_of_not {n : ℤ} (h : ¬ Allocates rt n) : rt.makeBytes n = .error .panic :=
  if_neg h

/-- A section in the file is read, and any other is an error. -/
theorem fileReadAt_of_inFile {off n : ℤ} (hn : Allocates rt n) (h : InFile f off n) :
    fileReadAt f n.toNat off = .ok (sectionAt f off n) := by
  refine if_pos ⟨h.1, h.2.imp (fun h0 => ?_) fun hle => ?_⟩
  · rw [h0, Int.toNat_zero]
  · rwa [Int.toNat_of_nonneg hn.1]

theorem fileReadAt_of_not {off n : ℤ} (hn : Allocates rt n) (h : ¬ InFile f off n) :
    fileReadAt f n.toNat off = .error .error := by
  have hcast : (n.toNat : ℤ) = n := Int.toNat_of_nonneg hn.1
  refine if_neg fun hin => h ⟨hin.1, hin.2.imp (fun h0 => ?_) fun hle => ?_⟩
  · omega
  · rwa [hcast] at hle

/-- The footer of a file that is long enough for one. -/
theorem read_footer (h : 40 ≤ f.length) :
    fileReadAt f 40 (f.length - 40) = .ok (footer f) ∧ (footer f).length = 40 := by
  unfold fileReadAt footer
  rw [if_pos (by omega), List.take_of_length_le (by rw [List.length_drop]; omega)]
  have hoff : ((f.length : ℤ) - 40).toNat = f.length - 40 := by omega
  rw [hoff, List.length_drop]
  exact ⟨rfl, by omega⟩

/-- What is left of opening a file behind its two sections. -/
def parse (rt : Runtime) (P : BloomParams) (f idxBuf bloomBuf : Bytes) :
    Except Fault TableFile := do
  let count ← fieldAt idxBuf 0 4
  rt.make (.map count)
  rt.make (.strings count)
  let (index, sortedKeys) ← readIndex idxBuf count 4 ∅ []
  let bloomFilter ← unmarshalBloomIn rt P bloomBuf
  pure { f := f, bloomFilter := bloomFilter, index := index, sortedKeys := sortedKeys }

theorem openSSTable_unrecognized (h : ¬ Recognized f) : openSSTable rt P f = .error .error := by
  unfold openSSTable
  by_cases hlen : f.length < 40
  · rw [if_pos hlen]
  · obtain ⟨hread, hflen⟩ := read_footer (not_lt.mp hlen)
    rw [if_neg hlen, hread, ok_bind, fieldAt_of_le (by omega), ok_bind,
      if_pos fun hmagic => h ⟨by omega, hmagic⟩]

theorem openSSTable_recognized (h : Recognized f) :
    openSSTable rt P f = rt.makeBytes (footerInt f 8) >>= fun idxLen =>
      fileReadAt f idxLen (footerInt f 0) >>= fun idxBuf =>
      rt.makeBytes (footerInt f 24) >>= fun blmLen =>
      fileReadAt f blmLen (footerInt f 16) >>= fun bloomBuf => parse rt P f idxBuf bloomBuf := by
  obtain ⟨hread, hflen⟩ := read_footer h.1
  have hlen := h.1
  unfold openSSTable
  rw [if_neg (by omega), hread, ok_bind, fieldAt_of_le (by omega), ok_bind,
    if_neg (not_not.mpr h.2), fieldAt_of_le (by omega), ok_bind, fieldAt_of_le (by omega),
    ok_bind, fieldAt_of_le (by omega), ok_bind, fieldAt_of_le (by omega), ok_bind]
  rfl

/-- **Sections that hold what they count are a table**, and its filter
answers where its bits are there. -/
theorem parse_of_fits {idxBuf bloomBuf : Bytes} (hsize : P.optimalM 1 = 64)
    (hk : P.optimalK 1 ≤ 12) (hidx : IndexFits rt idxBuf) (hwords : WordsFit rt bloomBuf) :
    ∃ t, parse rt P f idxBuf bloomBuf = .ok t ∧
      (rt.hasRoom (.words t.bloomFilter.k.toNat) ∧ t.bloomFilter.Covered ↔
        BitsFit rt bloomBuf) := by
  obtain ⟨hlen, hmap, hstrings, hfits⟩ := hidx
  obtain ⟨⟨index, keys⟩, hrows⟩ := readIndex_of_rowsFit hfits ∅ []
  obtain ⟨flt, hflt, hanswers⟩ := unmarshalBloomIn_of_fits hsize hk hwords
  refine ⟨⟨f, flt, index, keys⟩, ?_, hanswers⟩
  unfold parse
  rw [fieldAt_of_le hlen, ok_bind, Runtime.make_of_room hmap, ok_bind,
    Runtime.make_of_room hstrings, ok_bind, hrows, ok_bind]
  show (unmarshalBloomIn rt P bloomBuf >>= _) = _
  rw [hflt]
  rfl

/-- Any others are a panic. -/
theorem parse_of_not {idxBuf bloomBuf : Bytes}
    (h : ¬ (IndexFits rt idxBuf ∧ WordsFit rt bloomBuf)) :
    parse rt P f idxBuf bloomBuf = .error .panic := by
  unfold parse
  by_cases hlen : 4 ≤ idxBuf.length
  case neg =>
    rw [fieldAt_of_lt (by omega)]
    rfl
  rw [fieldAt_of_le hlen, ok_bind]
  by_cases hmap : rt.hasRoom (.map (field idxBuf 0 4))
  case neg =>
    rw [Runtime.make_of_full hmap]
    rfl
  rw [Runtime.make_of_room hmap, ok_bind]
  by_cases hstrings : rt.hasRoom (.strings (field idxBuf 0 4))
  case neg =>
    rw [Runtime.make_of_full hstrings]
    rfl
  rw [Runtime.make_of_room hstrings, ok_bind]
  by_cases hfits : RowsFit idxBuf (field idxBuf 0 4) 4
  case neg =>
    rw [readIndex_of_not hfits]
    rfl
  obtain ⟨⟨index, keys⟩, hrows⟩ := readIndex_of_rowsFit hfits ∅ []
  rw [hrows, ok_bind]
  show (unmarshalBloomIn rt P bloomBuf >>= _) = _
  rw [unmarshalBloomIn_of_not fun hwords => h ⟨⟨hlen, hmap, hstrings, hfits⟩, hwords⟩]
  rfl

/-! ## One file -/

/-- Opening ends in an error or a table, and the table's filter answers. -/
def Harmless (rt : Runtime) (P : BloomParams) (f : Bytes) : Prop :=
  openSSTable rt P f ≠ .error .panic ∧
    ∀ t, openSSTable rt P f = .ok t →
      ∀ key, t.bloomFilter.mayContainIn rt P key ≠ .error .panic

theorem harmless_of_error (h : openSSTable rt P f = .error .error) : Harmless rt P f := by
  rw [Harmless, h]
  exact ⟨by simp, fun t ht => by cases ht⟩

theorem not_harmless_of_panic (h : openSSTable rt P f = .error .panic) : ¬ Harmless rt P f :=
  fun hharmless => hharmless.1 h

/-- **A file is harmless just when it can be taken at its word.** -/
theorem harmless_iff_sound (rt : Runtime) (optimalM : ℕ → UInt64) (optimalK : ℕ → UInt32)
    (hsize : optimalM 1 = 64) (hk : optimalK 1 ≤ 12) (f : Bytes) :
    Harmless rt (.ofSizes optimalM optimalK) f ↔ Sound rt f := by
  by_cases hrec : Recognized f
  case neg =>
    exact ⟨fun _ h => absurd h hrec, fun _ => harmless_of_error (openSSTable_unrecognized hrec)⟩
  have hopen : openSSTable rt (.ofSizes optimalM optimalK) f = _ := openSSTable_recognized hrec
  rw [Sound, forall_prop_of_true hrec]
  by_cases hidx : Allocates rt (footerInt f 8)
  case neg =>
    rw [makeBytes_of_not hidx] at hopen
    exact iff_of_false (not_harmless_of_panic hopen) fun h => hidx h.1
  rw [makeBytes_of_allocates hidx, ok_bind] at hopen
  rw [and_iff_right hidx]
  by_cases hidxin : InFile f (footerInt f 0) (footerInt f 8)
  case neg =>
    rw [fileReadAt_of_not hidx hidxin] at hopen
    exact ⟨fun _ h => absurd h hidxin, fun _ => harmless_of_error hopen⟩
  rw [fileReadAt_of_inFile hidx hidxin, ok_bind] at hopen
  rw [forall_prop_of_true hidxin]
  by_cases hblm : Allocates rt (footerInt f 24)
  case neg =>
    rw [makeBytes_of_not hblm] at hopen
    exact iff_of_false (not_harmless_of_panic hopen) fun h => hblm h.1
  rw [makeBytes_of_allocates hblm, ok_bind] at hopen
  rw [and_iff_right hblm]
  by_cases hblmin : InFile f (footerInt f 16) (footerInt f 24)
  case neg =>
    rw [fileReadAt_of_not hblm hblmin] at hopen
    exact ⟨fun _ h => absurd h hblmin, fun _ => harmless_of_error hopen⟩
  rw [fileReadAt_of_inFile hblm hblmin, ok_bind] at hopen
  rw [forall_prop_of_true hblmin]
  by_cases hfits : IndexFits rt (sectionAt f (footerInt f 0) (footerInt f 8)) ∧
      WordsFit rt (sectionAt f (footerInt f 16) (footerInt f 24))
  case neg =>
    rw [parse_of_not hfits] at hopen
    exact iff_of_false (not_harmless_of_panic hopen) fun h => hfits ⟨h.1, h.2.1⟩
  -- there is a table: what is left is its filter
  obtain ⟨t, hparse, hanswers⟩ := parse_of_fits (f := f)
    (P := .ofSizes optimalM optimalK) hsize hk hfits.1 hfits.2
  rw [hparse] at hopen
  rw [and_iff_right hfits.1, and_iff_right hfits.2, ← hanswers,
    ← BloomFilter.answers_iff rt optimalM optimalK]
  rw [Harmless, hopen]
  simp

/-! ## Directories -/

/-- The tables of a level: of the files with its number, those that open. -/
def tablesAt (rt : Runtime) (P : BloomParams) (files : List (ℕ × Bytes)) (i : ℕ) :
    List TableFile :=
  files.filterMap fun file => if file.1 = i then (openSSTable rt P file.2).toOption else none

/-- **A directory without panics loads**, and what does not open is skipped. -/
theorem foldlM_loadFile {files : List (ℕ × Bytes)}
    (h : ∀ file ∈ files, openSSTable rt P file.2 ≠ .error .panic)
    (levels : List (List TableFile)) :
    ∃ levels', files.foldlM (loadFile rt P) levels = .ok levels' ∧
      ∀ i, levels'.getD i [] = levels.getD i [] ++ tablesAt rt P files i := by
  induction files generalizing levels with
  | nil => exact ⟨levels, rfl, fun i => (List.append_nil _).symm⟩
  | cons file files ih =>
    obtain ⟨hhead, htail⟩ := List.forall_mem_cons.mp h
    rw [List.foldlM_cons]
    rcases hopen : openSSTable rt P file.2 with (- | -) | t
    · obtain ⟨levels', hlevels, hget⟩ := ih htail levels
      refine ⟨levels', ?_, fun i => ?_⟩
      · rw [loadFile, hopen, ok_bind, hlevels]
      · rw [hget i, tablesAt, tablesAt, List.filterMap_cons, hopen]
        split_ifs <;> rfl
    · exact absurd hopen hhead
    · set padded := levels ++ List.replicate (file.1 + 1 - levels.length) [] with hpadded
      have hlen : file.1 < padded.length := by
        rw [hpadded, List.length_append, List.length_replicate]
        omega
      have hpad : ∀ i, padded.getD i [] = levels.getD i [] := by
        intro i
        rw [hpadded, List.getD_eq_getElem?_getD, List.getD_eq_getElem?_getD, List.getElem?_append]
        split_ifs with hi
        · rfl
        · rw [List.getElem?_eq_none (not_lt.mp hi), List.getElem?_replicate]
          split_ifs <;> rfl
      obtain ⟨levels', hlevels, hget⟩ := ih htail (padded.set file.1 (padded.getD file.1 [] ++ [t]))
      refine ⟨levels', ?_, fun i => ?_⟩
      · rw [loadFile, hopen, ok_bind]
        exact hlevels
      · rw [hget i, tablesAt, tablesAt, List.filterMap_cons, hopen]
        by_cases hi : file.1 = i
        · subst hi
          rw [if_pos rfl, List.getD_eq_getElem?_getD, List.getElem?_set_self hlen, hpad]
          simp [Except.toOption]
        · rw [if_neg hi, List.getD_eq_getElem?_getD, List.getElem?_set_ne hi,
            ← List.getD_eq_getElem?_getD, hpad]

/-- **Corrupt tables are rejected, not fatal**, of the files of a
directory: none of them panics, the directory loads with the tables that
open, and their filters answer every key. -/
structure Rejects (rt : Runtime) (P : BloomParams) (files : List (ℕ × Bytes)) : Prop where
  opens : ∀ file ∈ files, openSSTable rt P file.2 ≠ .error .panic
  loads : ∃ levels, loadFiles rt P files = .ok levels ∧
    ∀ i, levels.getD i [] = tablesAt rt P files i
  answers : ∀ file ∈ files, ∀ t, openSSTable rt P file.2 = .ok t →
    ∀ key, t.bloomFilter.mayContainIn rt P key ≠ .error .panic

theorem Rejects.harmless {files : List (ℕ × Bytes)} (h : Rejects rt P files) {file : ℕ × Bytes}
    (hfile : file ∈ files) : Harmless rt P file.2 :=
  ⟨h.opens file hfile, h.answers file hfile⟩

/-- **They are rejected just when every file can be taken at its word**, in
the memory of the process that opens them. -/
theorem rejects_iff_sound (rt : Runtime) (optimalM : ℕ → UInt64) (optimalK : ℕ → UInt32)
    (hsize : optimalM 1 = 64) (hk : optimalK 1 ≤ 12) (files : List (ℕ × Bytes)) :
    Rejects rt (.ofSizes optimalM optimalK) files ↔ ∀ file ∈ files, Sound rt file.2 := by
  constructor
  · intro h file hfile
    exact (harmless_iff_sound rt _ _ hsize hk file.2).mp (h.harmless hfile)
  · intro h
    have hharmless : ∀ file ∈ files, Harmless rt (.ofSizes optimalM optimalK) file.2 :=
      fun file hfile => (harmless_iff_sound rt _ _ hsize hk file.2).mpr (h file hfile)
    refine ⟨fun file hfile => (hharmless file hfile).1, ?_,
      fun file hfile => (hharmless file hfile).2⟩
    obtain ⟨levels, hlevels, hget⟩ :=
      foldlM_loadFile (fun file hfile => (hharmless file hfile).1) [[]]
    refine ⟨levels, hlevels, fun i => ?_⟩
    rw [hget i]
    cases i <;> rfl

/-- The sizes of `NewBloomFilter(1, 0.01)`. -/
def smallestSizes : BloomParams := .ofSizes (fun _ => 64) fun _ => 12

/-- A process with room for 32 GiB at a time. -/
def modest : Runtime where
  hasRoom
    | .bytes n => n ≤ 2 ^ 35
    | .words n => n ≤ 2 ^ 32
    | .strings n => n ≤ 2 ^ 31
    | .map n => n ≤ 2 ^ 30
  small n hn := decide_eq_true (hn.trans (by decide))

/-- A footer alone, with the magic number and sections of no bytes. -/
def bareFooter : Bytes := footerBytes 0 0 0 0

/-- A footer alone, with an index of a terabyte. -/
def longIndex : Bytes := footerBytes 0 (2 ^ 40) 0 0

/-- An index of a terabyte ends a process that has no room for it, before
anything of it is read. -/
theorem not_sound_longIndex {rt : Runtime} (h : ¬ rt.hasRoom (.bytes (2 ^ 40))) :
    ¬ Sound rt longIndex := by
  have hlength : footerInt longIndex 8 = 2 ^ 40 := by decide +kernel
  intro hsound
  obtain ⟨⟨-, hroom⟩, -⟩ := hsound (by decide +kernel)
  rw [hlength] at hroom
  exact h hroom

/-- A footer cut short is skipped, and an index of a terabyte is fatal. -/
theorem rejects_iff_sound_longIndex :
    Rejects modest smallestSizes [(0, bareFooter.tail)] ∧
      ¬ Rejects modest smallestSizes [(0, bareFooter.tail), (1, longIndex)] := by
  have hiff := rejects_iff_sound modest (fun _ => 64) (fun _ => 12) rfl (by decide)
  constructor
  · refine (hiff _).mpr fun file hfile hrec => ?_
    obtain rfl := List.mem_singleton.mp hfile
    exact absurd hrec.1 (by decide)
  · intro h
    exact not_sound_longIndex (by decide) ((hiff _).mp h (1, longIndex) (by simp))

/-- Forty bytes that are fatal to any process: the index has no room for
its count. -/
theorem bare_footer_panics : ¬ ∃ rt, ∀ files, Rejects rt smallestSizes files := by
  rintro ⟨rt, hall⟩
  have hharmless := (hall [(0, bareFooter)]).harmless (List.mem_singleton_self _)
  have hsound := (harmless_iff_sound rt (fun _ => 64) (fun _ => 12) rfl (by decide) _).mp hharmless
  dsimp only at hsound
  have hnumbers : ∀ i ∈ [0, 8, 16, 24], footerInt bareFooter i = 0 := by decide +kernel
  have hempty : InFile bareFooter 0 0 := by decide +kernel
  unfold Sound at hsound
  rw [hnumbers 0 (by simp), hnumbers 8 (by simp), hnumbers 16 (by simp),
    hnumbers 24 (by simp)] at hsound
  have hfits := ((hsound (by decide +kernel)).2 hempty).2 hempty
  exact absurd hfits.1.1 (by decide +kernel)

end TableFile

end Metastore

end TftAnalytics

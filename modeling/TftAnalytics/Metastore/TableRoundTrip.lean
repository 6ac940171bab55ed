import TftAnalytics.Metastore.Helpers.TableFile
import TftAnalytics.Metastore.Model.History
import TftAnalytics.Common.Buckets
/-!
# Metastore — what a table file gives back

The four sections of a file line up: opening what `writeSSTable` wrote
recovers the index and the filter, and every lookup goes through them to
the entry that was written. The abstract table of the model is thereby
what the bytes implement.
-/

namespace TftAnalytics

namespace Metastore

namespace TableFile

variable {c : Codec} {P : BloomParams}

/-! ## The footer -/

@[simp] theorem length_footerBytes (indexOff indexLen bloomOff bloomLen : ℕ) :
    (footerBytes indexOff indexLen bloomOff bloomLen).length = 40 := by
  simp [footerBytes]

/-- **The footer reads back**, field by field. -/
theorem fieldAt_footerBytes (indexOff indexLen bloomOff bloomLen : ℕ)
    (h₁ : indexOff < 2 ^ 64) (h₂ : indexLen < 2 ^ 64) (h₃ : bloomOff < 2 ^ 64)
    (h₄ : bloomLen < 2 ^ 64) :
    let footer := footerBytes indexOff indexLen bloomOff bloomLen
    fieldAt footer 0 8 = .ok indexOff ∧ fieldAt footer 8 8 = .ok indexLen ∧
      fieldAt footer 16 8 = .ok bloomOff ∧ fieldAt footer 24 8 = .ok bloomLen ∧
      fieldAt footer 32 8 = .ok ssTableMagic := by
  refine ⟨fieldAt_eq (p := []) (q := beBytes 8 indexLen ++ beBytes 8 bloomOff
      ++ beBytes 8 bloomLen ++ beBytes 8 ssTableMagic) ?_ rfl h₁,
    fieldAt_eq (p := beBytes 8 indexOff) (q := beBytes 8 bloomOff ++ beBytes 8 bloomLen
      ++ beBytes 8 ssTableMagic) ?_ (by simp) h₂,
    fieldAt_eq (p := beBytes 8 indexOff ++ beBytes 8 indexLen) (q := beBytes 8 bloomLen
      ++ beBytes 8 ssTableMagic) ?_ (by simp) h₃,
    fieldAt_eq (p := beBytes 8 indexOff ++ beBytes 8 indexLen ++ beBytes 8 bloomOff)
      (q := beBytes 8 ssTableMagic) ?_ (by simp) h₄,
    fieldAt_eq (p := beBytes 8 indexOff ++ beBytes 8 indexLen ++ beBytes 8 bloomOff
      ++ beBytes 8 bloomLen) (q := []) ?_ (by simp) (by decide)⟩
  all_goals simp [footerBytes]

/-! ## Opening -/

/-- Where an index locates the keys of its table. -/
theorem Located.bounds {data : TableData} {index : Index} (h : Located data index) {key : GoString}
    (hkey : key ∈ data.map Prod.fst) :
    ∃ off, index.lookup key = some off ∧ 0 ≤ off ∧ off ≤ (dataBytes data).length := by
  have hloc := h key
  split at hloc
  · rename_i hnone
    obtain ⟨r, hr, rfl⟩ := List.mem_map.mp hkey
    rw [List.lookup_eq_none_iff] at hnone
    have := hnone r (List.mem_reverse.mpr hr)
    simp at this
  · rename_i val _
    obtain ⟨pre, post, hdata, hoff⟩ := hloc
    have := length_dataBytes_le pre (key, val) post
    rw [← hdata] at this
    exact ⟨_, hoff, by omega, by exact_mod_cast this⟩

/-- Rebuilding an index row by row changes no lookup. -/
theorem Located.rebuild {data : TableData} {index : Index} (h : Located data index) :
    Located data ((data.map Prod.fst).foldl
      (fun m k => m.insert k ((index.lookup k).getD 0)) ∅) := by
  intro key
  have hloc := h key
  rw [lookup_foldl_insert]
  split at hloc
  · rename_i hnone
    have hkey : key ∉ data.map Prod.fst := by
      intro hkey
      obtain ⟨off, hoff, -⟩ := h.bounds hkey
      rw [hloc] at hoff
      cases hoff
    show (if key ∈ data.map Prod.fst then _ else (∅ : Index).lookup key) = none
    rw [if_neg hkey, AList.lookup_empty]
  · rename_i val _
    obtain ⟨pre, post, hdata, hoff⟩ := hloc
    have hkey : key ∈ data.map Prod.fst := by
      rw [hdata]
      simp
    refine ⟨pre, post, hdata, ?_⟩
    rw [if_pos hkey, hoff, Option.getD_some]

/-- A filter's bytes: two numbers, the count of its words, and the words. -/
theorem length_marshal (f : BloomFilter) : f.marshal.length = 16 + 8 * f.bits.length := by
  simp [BloomFilter.marshal, List.length_flatMap]
  omega

/-- The index section as it was built, within one allocation. -/
theorem Written.indexSection_eq {words : ℕ} {data : TableData} {w : TableWriter} {idxBuf : Bytes}
    (h : Written P words data w) (hidx : w.indexSection = .ok idxBuf) :
    idxBuf = beBytes 4 data.length
        ++ rowBytes (fun k => (w.index.lookup k).getD 0) (data.map Prod.fst) ∧
      idxBuf.length ≤ maxAlloc := by
  unfold TableWriter.indexSection at hidx
  simp only at hidx
  split_ifs at hidx with hlen
  rw [Except.ok.injEq] at hidx
  rw [← hidx]
  refine ⟨?_, hlen⟩
  rw [h.sortedKeys, List.length_map]
  rfl

/-- **The rows of the index read back**, as the index of the same lookups. -/
theorem Written.readIndex_eq {words : ℕ} {data : TableData} {w : TableWriter} {idxBuf : Bytes}
    (h : Written P words data w) (hkeys : ∀ r ∈ data, r.1.length < 2 ^ 32)
    (hlen : (dataBytes data).length < 2 ^ 63) (hidx : w.indexSection = .ok idxBuf) :
    readIndex idxBuf data.length 4 ∅ []
      = .ok ((data.map Prod.fst).foldl (fun m k => m.insert k ((w.index.lookup k).getD 0)) ∅,
        data.map Prod.fst) := by
  obtain ⟨hbuf, -⟩ := h.indexSection_eq hidx
  have hrows := TableFile.readIndex_eq (fun k => (w.index.lookup k).getD 0) (data.map Prod.fst)
    (b := idxBuf) (p := beBytes 4 data.length) (q := []) (by rw [hbuf, List.append_nil])
    (fun k hk => by
      obtain ⟨r, hr, rfl⟩ := List.mem_map.mp hk
      exact hkeys r hr)
    (fun k hk => by
      obtain ⟨off, hoff, hnonneg, hle⟩ := h.located.bounds hk
      simp only [hoff, Option.getD_some]
      omega)
    ∅ []
  rwa [List.length_map, length_beBytes, List.nil_append] at hrows

/-- **The sections read back**: the footer from the end of the file, and
the index and the filter from where the footer says they are. -/
theorem sections_read {rows idx bloom file : Bytes} (hidx : idx.length ≤ maxAlloc)
    (hbloom : bloom.length ≤ maxAlloc)
    (hfile : file = rows ++ idx ++ bloom
      ++ footerBytes rows.length idx.length (rows.length + idx.length) bloom.length)
    (hsize : file.length < 2 ^ 63) :
    fileReadAt file 40 (file.length - 40)
        = .ok (footerBytes rows.length idx.length (rows.length + idx.length) bloom.length) ∧
      Runtime.ample.makeBytes (asInt64 idx.length) = .ok idx.length ∧
      fileReadAt file idx.length (asInt64 rows.length) = .ok idx ∧
      Runtime.ample.makeBytes (asInt64 bloom.length) = .ok bloom.length ∧
      fileReadAt file bloom.length (asInt64 (rows.length + idx.length)) = .ok bloom := by
  set footer := footerBytes rows.length idx.length (rows.length + idx.length) bloom.length
    with hfooter
  have hflen : file.length = rows.length + idx.length + bloom.length + 40 := by
    rw [hfile]
    simp [hfooter]
    omega
  refine ⟨?_, ?_, ?_, ?_, ?_⟩
  · exact fileReadAt_eq (p := rows ++ idx ++ bloom) (q := []) (by rw [hfile, List.append_nil])
      (by rw [hflen]; simp; omega) (by simp [hfooter])
  · rw [asInt64_of_lt (by omega)]
    exact Runtime.makeBytes_ample hidx
  · rw [asInt64_of_lt (by omega)]
    exact fileReadAt_eq (p := rows) (q := bloom ++ footer) (by rw [hfile]; simp) rfl rfl
  · rw [asInt64_of_lt (by omega)]
    exact Runtime.makeBytes_ample hbloom
  · rw [asInt64_of_lt (by omega)]
    exact fileReadAt_eq (p := rows ++ idx) (q := footer) hfile (by simp) rfl

/-- **The file opens, and serves its records.** -/
theorem openSSTable_written {words : ℕ} {data : TableData} {w : TableWriter} {idxBuf file : Bytes}
    (h : Written P words data w) (hwords : words < 2 ^ 32) (hcount : data.length < 2 ^ 32)
    (hkeys : ∀ r ∈ data, r.1.length < 2 ^ 32) (hidx : w.indexSection = .ok idxBuf)
    (hfile : file = w.file ++ idxBuf ++ w.bloom.marshal
      ++ footerBytes w.pos.toNat idxBuf.length (w.pos.toNat + idxBuf.length)
        w.bloom.marshal.length)
    (hsize : file.length < 2 ^ 63) :
    ∃ t, openSSTable .ample P file = .ok t ∧ Serves P data t := by
  obtain ⟨hbuf, hmem⟩ := h.indexSection_eq hidx
  have hpos : w.pos.toNat = w.file.length := by rw [h.pos, h.file, Int.toNat_natCast]
  have hmarshal : w.bloom.marshal.length ≤ maxAlloc := by
    rw [length_marshal, h.length_bits, maxAlloc]
    omega
  rw [hpos] at hfile
  have hflen : file.length = w.file.length + idxBuf.length + w.bloom.marshal.length + 40 := by
    rw [hfile]
    simp
    omega
  obtain ⟨hfooter, hmakeIdx, hreadIdx, hmakeBloom, hreadBloom⟩ :=
    sections_read hmem hmarshal hfile hsize
  obtain ⟨hf₁, hf₂, hf₃, hf₄, hmagic⟩ := fieldAt_footerBytes w.file.length idxBuf.length
    (w.file.length + idxBuf.length) w.bloom.marshal.length (by omega) (by omega) (by omega)
    (by omega)
  have hcountField : fieldAt idxBuf 0 4 = .ok data.length :=
    fieldAt_eq (p := []) (by rw [hbuf, List.nil_append]) rfl hcount
  have hrows := h.readIndex_eq hkeys (by rw [← h.file]; omega) hidx
  have hmap : Runtime.ample.make (.map data.length) = .ok () := rfl
  have hstrings : Runtime.ample.make (.strings data.length) = .ok () := rfl
  have hfilter : unmarshalBloomIn .ample P w.bloom.marshal = .ok w.bloom := by
    unfold unmarshalBloomIn
    rw [Runtime.make_of_room rfl, ok_bind,
      BloomFilter.unmarshalBloom_marshal P (by rw [h.length_bits]; exact hwords)]
  refine ⟨⟨file, w.bloom,
    (data.map Prod.fst).foldl (fun m k => m.insert k ((w.index.lookup k).getD 0)) ∅,
    data.map Prod.fst⟩, ?_, ?_⟩
  · unfold openSSTable
    -- one rewrite for each read and check, in the order of the source
    rw [if_neg (by omega), hfooter, ok_bind, hmagic, ok_bind, if_neg (by simp), hf₁, ok_bind,
      hf₂, ok_bind, hf₃, ok_bind, hf₄, ok_bind, hmakeIdx, ok_bind, hreadIdx, ok_bind, hmakeBloom,
      ok_bind, hreadBloom, ok_bind, hcountField, ok_bind, hmap, ok_bind, hstrings, ok_bind, hrows,
      ok_bind]
    show (unmarshalBloomIn .ample P w.bloom.marshal >>= _) = _
    rw [hfilter]
    rfl
  · exact
      { file := ⟨idxBuf ++ w.bloom.marshal
            ++ footerBytes w.file.length idxBuf.length (w.file.length + idxBuf.length)
              w.bloom.marshal.length, by
          show file = _
          rw [hfile, h.file]
          simp⟩
        sortedKeys := rfl
        located := h.located.rebuild
        wellSized := h.wellSized
        holds := h.holds }

/-! ## The round trip -/

/-- An entry that marshals has a key its length field holds. -/
theorem length_entryKey_lt {e : StatEntry} {val : Bytes} (h : c.marshal e = some val) :
    (entryKey e).length < 2 ^ 32 := by
  have hstrings := c.strings_le h
  have hlen := c.length_lt h
  unfold entryKey
  simp only [List.length_append, List.length_singleton]
  omega

/-- The filter `writeSSTable` starts from covers its bits. -/
theorem wellSized_of_words {n : ℕ} (hm : 64 ≤ (P.optimalM (max n 1)).toNat)
    (hwords : ((P.optimalM (max n 1)).toNat + 63) / 64 < 2 ^ 32) :
    (newBloomFilter P n).WellSized ∧ (newBloomFilter P n).bits.length < 2 ^ 32 := by
  have hwrap : (P.optimalM (max n 1)).toNat + 63 < 2 ^ 64 := by omega
  refine ⟨BloomFilter.wellSized_newBloomFilter (by omega) hwrap, ?_⟩
  rw [BloomFilter.length_bits_newBloomFilter hwrap]
  exact hwords

/-- What `writeSSTable` has written is the table of the records of its
entries. -/
theorem writeSSTable_eq {entries : List StatEntry} {file : Bytes}
    (hwrite : writeSSTable c P entries = .ok file)
    (hsized : (newBloomFilter P entries.length).WellSized) :
    ∃ data w idxBuf, tableRecords c entries = some data ∧
      Written P (newBloomFilter P entries.length).bits.length data w ∧
      w.indexSection = .ok idxBuf ∧
      file = w.file ++ idxBuf ++ w.bloom.marshal
        ++ footerBytes w.pos.toNat idxBuf.length (w.pos.toNat + idxBuf.length)
          w.bloom.marshal.length := by
  unfold writeSSTable at hwrite
  cases hdata : tableRecords c entries with
  | none =>
    rw [hdata] at hwrite
    cases hwrite
  | some data =>
    obtain ⟨w, hfold, hw⟩ := (written_start (P := P) hsized).foldlM data
    rw [hdata] at hwrite
    simp only [ok_bind, hfold] at hwrite
    cases hidx : w.indexSection with
    | error fault =>
      rw [hidx] at hwrite
      cases hwrite
    | ok idxBuf =>
      rw [hidx, ok_bind] at hwrite
      refine ⟨data, w, idxBuf, rfl, by simpa using hw, hidx, ?_⟩
      cases hwrite
      rfl

/-- The length of the rows of an index section. -/
theorem length_rowBytes (off : GoString → ℤ) (keys : List GoString) :
    (rowBytes off keys).length = (keys.map fun k => 12 + k.length).sum := by
  induction keys with
  | nil => rfl
  | cons k keys ih =>
    rw [rowBytes, List.flatMap_cons, List.length_append, List.map_cons, List.sum_cons, ← ih]
    simp [indexRow, rowBytes]
    omega

/-- **Writing succeeds**, where the entries marshal and the index section
is no longer than an allocation may be. -/
theorem writeSSTable_isOk {entries : List StatEntry}
    (hes : ∀ e ∈ entries, ∃ val, c.marshal e = some val)
    (hsized : (newBloomFilter P entries.length).WellSized)
    (hfits : 4 + (entries.map fun e => 12 + (entryKey e).length).sum ≤ maxAlloc) :
    ∃ file, writeSSTable c P entries = .ok file := by
  obtain ⟨data, hdata, hkeys, -⟩ := tableRecords_spec hes
  obtain ⟨w, hfold, hw⟩ := (written_start (P := P) hsized).foldlM data
  have hsorted : w.sortedKeys
      = (entries.insertionSort fun a b => entryKey a ≤ entryKey b).map entryKey := by
    rw [hw.sortedKeys, List.nil_append, hkeys]
  have hsum : (w.sortedKeys.map fun k => 12 + k.length).sum
      = (entries.map fun e => 12 + (entryKey e).length).sum := by
    rw [hsorted, List.map_map]
    exact ((List.perm_insertionSort _ entries).map _).sum_eq
  have hlen := length_rowBytes (fun k => (w.index.lookup k).getD 0) w.sortedKeys
  unfold writeSSTable TableWriter.indexSection
  rw [hdata]
  simp only [ok_bind, hfold]
  rw [if_pos]
  · exact ⟨_, rfl⟩
  · unfold rowBytes at hlen
    rw [List.length_append, length_beBytes, hlen, hsum]
    exact hfits

/-- Records are only made of entries that marshal. -/
theorem marshal_of_tableRecords {es : List StatEntry} {data : TableData}
    (h : tableRecords c es = some data) : ∀ e ∈ es, ∃ val, c.marshal e = some val := by
  have hmapM : ∀ (l : List StatEntry) (d : TableData),
      l.mapM (fun e => (c.marshal e).map fun val => (entryKey e, val)) = some d →
      ∀ e ∈ l, ∃ val, c.marshal e = some val := by
    intro l
    induction l with
    | nil => simp
    | cons e l ih =>
      intro d hd
      rw [List.mapM_cons] at hd
      obtain ⟨r, hr, hd⟩ := Option.bind_eq_some_iff.mp hd
      obtain ⟨rs, hrs, -⟩ := Option.bind_eq_some_iff.mp hd
      obtain ⟨val, hval, -⟩ := Option.map_eq_some_iff.mp hr
      exact List.forall_mem_cons.mpr ⟨⟨val, hval⟩, ih rs hrs⟩
  exact fun e he => hmapM _ _ h e ((List.mem_insertionSort _).mpr he)

/-- A scan of the table of entries of distinct keys returns those that
match, in the order of their keys. -/
theorem scan_tableRecords {es : List StatEntry} (hes : ∀ e ∈ es, ∃ val, c.marshal e = some val)
    (hnodup : (es.map entryKey).Nodup) {data : TableData}
    (hkeys : data.map Prod.fst = (es.insertionSort fun a b => entryKey a ≤ entryKey b).map entryKey)
    (hmem : ∀ r, r ∈ data ↔ ∃ e ∈ es, entryKey e = r.1 ∧ c.marshal e = some r.2)
    (path : SSTPath) (keep : StatEntry → Bool) :
    (SSTable.mk path data).scan c keep
      = some ((es.insertionSort fun a b => entryKey a ≤ entryKey b).filter keep) := by
  have hget : ∀ l : List StatEntry, (∀ e ∈ l, e ∈ es) →
      (l.map entryKey).mapM (fun key => (SSTable.mk path data).get c key) = some l := by
    intro l
    induction l with
    | nil => exact fun _ => rfl
    | cons e l ih =>
      intro hl
      have he := (get_tableRecords hes hnodup hmem path (entryKey e) e).mpr ⟨hl e (by simp), rfl⟩
      rw [List.map_cons, List.mapM_cons, he, ih fun x hx => hl x (by simp [hx])]
      rfl
  have hall := hget (es.insertionSort fun a b => entryKey a ≤ entryKey b)
    fun e he => (List.mem_insertionSort _).mp he
  rw [← hkeys, List.mapM_map] at hall
  unfold SSTable.scan
  show (data.mapM ((fun key => (SSTable.mk path data).get c key) ∘ Prod.fst)).map _ = _
  rw [hall]
  rfl

/-- **The round trip of a table.** Entries of distinct keys, in any order,
are written and opened again: a lookup finds exactly the entry of its key,
and a scan returns exactly the entries that match, each once, in ascending
key order. -/
theorem roundTrip (c : Codec) (P : BloomParams) (entries : List StatEntry) (file : Bytes)
    (hnodup : (entries.map entryKey).Nodup) (hcount : entries.length < 2 ^ 32)
    (hm : 64 ≤ (P.optimalM (max entries.length 1)).toNat)
    (hwords : ((P.optimalM (max entries.length 1)).toNat + 63) / 64 < 2 ^ 32)
    (hwrite : writeSSTable c P entries = .ok file) (hsize : file.length < 2 ^ 63) :
    ∃ t, openSSTable .ample P file = .ok t ∧
      (∀ key, t.get P c key = .ok (entries.find? fun e => entryKey e = key)) ∧
      ∀ keep : StatEntry → Bool, ∃ out, t.scan c keep = .ok out ∧
        out.Perm (entries.filter keep) ∧ (out.map entryKey).Pairwise (· < ·) := by
  obtain ⟨hsized, hlen⟩ := wellSized_of_words hm hwords
  obtain ⟨data, w, idxBuf, hdata, hw, hidx, hfile⟩ := writeSSTable_eq hwrite hsized
  have hmarshal := marshal_of_tableRecords hdata
  obtain ⟨data', hdata', hkeys, hmem⟩ := tableRecords_spec hmarshal
  obtain rfl : data = data' := by rw [hdata, Option.some.injEq] at hdata'; exact hdata'
  have hread : Readable c data := by
    intro r hr
    obtain ⟨e, he, hkey, hval⟩ := (hmem r).mp hr
    exact ⟨hkey ▸ length_entryKey_lt hval, (c.length_lt hval).trans (by decide), e,
      c.unmarshal_marshal hval⟩
  have hdlen : data.length < 2 ^ 32 := by
    have := congrArg List.length hkeys
    simp only [List.length_map, List.length_insertionSort] at this
    omega
  obtain ⟨t, hopen, hserves⟩ := openSSTable_written hw hlen hdlen (fun r hr => (hread r hr).1) hidx
    hfile hsize
  refine ⟨t, hopen, fun key => ?_, fun keep => ?_⟩
  · rw [hserves.get_eq hread ⟨0, 0, 0⟩ key]
    congr 1
    -- both sides are the entry of the key
    ext e
    rw [get_tableRecords hmarshal hnodup hmem]
    constructor
    · rintro ⟨he, rfl⟩
      exact (find?_of_nodup_map hnodup).mpr ⟨he, rfl⟩
    · exact (find?_of_nodup_map hnodup).mp
  · obtain ⟨out, hout, htable⟩ := hserves.scan_eq hread ⟨0, 0, 0⟩ keep
    rw [scan_tableRecords hmarshal hnodup hkeys hmem, Option.some.injEq] at htable
    subst htable
    refine ⟨_, hout, (List.perm_insertionSort _ _).filter _, ?_⟩
    exact ((sorted_insertionSort entryKey hnodup).sublist (List.filter_sublist.map _))

/-- Two entries of the store's tests, out of order. -/
def sampleEntries : List StatEntry := [sampleEntry 98 2, sampleEntry 97 1]

/-- The smallest filter, which is what two entries get. -/
def sampleParams : BloomParams := .ofSizes (fun _ => 64) fun _ => 12

/-- The file they are written to. -/
def sampleFile : Bytes :=
  match writeSSTable sampleCodec sampleParams sampleEntries with
  | .ok file => file
  | .error _ => []

theorem roundTrip_sample :
    ∃ t, openSSTable .ample sampleParams sampleFile = .ok t ∧
      t.get sampleParams sampleCodec [97, 58, 58, 58] = .ok (some (sampleEntry 97 1)) ∧
      t.get sampleParams sampleCodec [99, 58, 58, 58] = .ok none := by
  have hwrite : writeSSTable sampleCodec sampleParams sampleEntries = .ok sampleFile := by
    decide +kernel
  have hsize : sampleFile.length < 2 ^ 63 := by decide +kernel
  obtain ⟨t, hopen, hget, -⟩ := roundTrip sampleCodec sampleParams sampleEntries sampleFile
    (by decide) (by decide) (by decide) (by decide) hwrite hsize
  exact ⟨t, hopen, hget _, hget _⟩

end TableFile

end Metastore

end TftAnalytics

import TftAnalytics.Metastore.Model.TableFile
import TftAnalytics.Metastore.Helpers.Bloom
import TftAnalytics.Metastore.Helpers.Table
/-!
# Metastore — table files serve their records

Helper layer. What stands in a file that `writeSSTable` wrote is named by
the bytes that precede it: the index maps each key to the length of the
data before its last record, and the footer gives the lengths of the
sections. Opening recovers the index and the filter, so the file serves
what the table of its records serves.
-/

namespace TftAnalytics

namespace Metastore

namespace TableFile

variable {c : Codec} {P : BloomParams}

/-- The data section of a list of records. -/
def dataBytes (data : TableData) : Bytes := data.flatMap recordBytes

@[simp] theorem dataBytes_append (d d' : TableData) :
    dataBytes (d ++ d') = dataBytes d ++ dataBytes d' := List.flatMap_append

@[simp] theorem dataBytes_cons (r : GoString × Bytes) (d : TableData) :
    dataBytes (r :: d) = recordBytes r ++ dataBytes d := List.flatMap_cons

theorem length_dataBytes_le (pre : TableData) (r : GoString × Bytes) (post : TableData) :
    (dataBytes pre).length ≤ (dataBytes (pre ++ r :: post)).length := by
  rw [dataBytes_append, List.length_append]
  omega

/-- An index that maps each key to the position of its last record. -/
def Located (data : TableData) (index : Index) : Prop :=
  ∀ key, match data.reverse.lookup key with
    | none => index.lookup key = none
    | some val => ∃ pre post, data = pre ++ (key, val) :: post ∧
        index.lookup key = some ((dataBytes pre).length : ℤ)

/-! ## Writing -/

/-- What `writeSSTable` has built once it has written the records
`data`, with a filter of `words` words. -/
structure Written (P : BloomParams) (words : ℕ) (data : TableData) (w : TableWriter) : Prop where
  file : w.file = dataBytes data
  pos : w.pos = (dataBytes data).length
  sortedKeys : w.sortedKeys = data.map Prod.fst
  located : Located data w.index
  wellSized : w.bloom.WellSized
  length_bits : w.bloom.bits.length = words
  holds : ∀ r ∈ data, w.bloom.Holds P r.1

theorem written_start {bloom : BloomFilter} (h : bloom.WellSized) :
    Written P bloom.bits.length [] (.start bloom) where
  file := rfl
  pos := rfl
  sortedKeys := rfl
  located := fun _ => rfl
  wellSized := h
  length_bits := rfl
  holds := by simp

theorem Located.insert {data : TableData} {index : Index} (h : Located data index)
    (r : GoString × Bytes) :
    Located (data ++ [r]) (index.insert r.1 ((dataBytes data).length : ℤ)) := by
  intro key
  rw [List.reverse_append, List.reverse_singleton, List.singleton_append]
  by_cases hkey : key = r.1
  · subst hkey
    rw [List.lookup_cons_self]
    exact ⟨data, [], rfl, AList.lookup_insert _⟩
  · rw [List.lookup_cons, beq_false_of_ne hkey]
    show (match data.reverse.lookup key with | none => _ | some val => _)
    have hold := h key
    split at hold
    · show (index.insert r.1 _).lookup key = none
      rw [AList.lookup_insert_ne hkey, hold]
    · obtain ⟨pre, post, hdata, hoff⟩ := hold
      refine ⟨pre, post ++ [r], by rw [hdata]; simp, ?_⟩
      rw [AList.lookup_insert_ne hkey, hoff]

/-- **One turn of the loop** adds its record. -/
theorem Written.add {words : ℕ} {data : TableData} {w : TableWriter} (h : Written P words data w)
    (r : GoString × Bytes) :
    ∃ w', TableWriter.add P w r = .ok w' ∧ Written P words (data ++ [r]) w' := by
  obtain ⟨bloom, hadd, hsized, -, -, hlen, hself, hkeep⟩ := h.wellSized.add P r.1
  refine ⟨_, by rw [TableWriter.add, hadd]; rfl, ?_⟩
  constructor
  · show w.file ++ recordBytes r = _
    rw [h.file, dataBytes_append]
    simp [dataBytes]
  · show w.pos + (recordBytes r).length = _
    rw [h.pos, dataBytes_append]
    simp [dataBytes]
  · show w.sortedKeys ++ [r.1] = _
    rw [h.sortedKeys, List.map_append, List.map_singleton]
  · show Located _ (w.index.insert r.1 w.pos)
    rw [h.pos]
    exact h.located.insert r
  · exact hsized
  · exact hlen.trans h.length_bits
  · intro x hx
    rcases List.mem_append.mp hx with hx | hx
    · exact hkeep _ (h.holds x hx)
    · rw [List.mem_singleton.mp hx]
      exact hself

/-- So the whole loop writes all of them. -/
theorem Written.foldlM {words : ℕ} {done : TableData} {w : TableWriter}
    (h : Written P words done w) (data : TableData) :
    ∃ w', data.foldlM (TableWriter.add P) w = .ok w' ∧ Written P words (done ++ data) w' := by
  induction data generalizing done w with
  | nil => exact ⟨w, rfl, by simpa using h⟩
  | cons r data ih =>
    obtain ⟨w₁, hadd, h₁⟩ := h.add r
    obtain ⟨w₂, hfold, h₂⟩ := ih h₁
    refine ⟨w₂, ?_, by simpa using h₂⟩
    rw [List.foldlM_cons, hadd, ok_bind, hfold]

/-! ## Reading the index -/

/-- The rows of the index section. -/
def rowBytes (off : GoString → ℤ) (keys : List GoString) : Bytes :=
  keys.flatMap fun key => indexRow key (off key)

/-- Inserting the rows of a list of keys one by one. -/
theorem lookup_foldl_insert (off : GoString → ℤ) (keys : List GoString) (index : Index)
    (key : GoString) :
    (keys.foldl (fun m k => m.insert k (off k)) index).lookup key
      = if key ∈ keys then some (off key) else index.lookup key := by
  induction keys generalizing index with
  | nil => simp
  | cons k keys ih =>
    rw [List.foldl_cons, ih]
    by_cases hmem : key ∈ keys
    · simp [hmem]
    · by_cases hk : key = k
      · subst hk
        simp [hmem, AList.lookup_insert]
      · simp [hmem, hk, AList.lookup_insert_ne hk]

/-- **The index section reads back**, row by row, each row behind the ones
before it. -/
theorem readIndex_eq (off : GoString → ℤ) (keys : List GoString) {b p q : Bytes}
    (hbuf : b = p ++ rowBytes off keys ++ q) (hkeys : ∀ k ∈ keys, k.length < 2 ^ 32)
    (hoff : ∀ k ∈ keys, 0 ≤ off k ∧ off k < 2 ^ 63) (index : Index) (done : List GoString) :
    readIndex b keys.length p.length index done
      = .ok (keys.foldl (fun m k => m.insert k (off k)) index, done ++ keys) := by
  induction keys generalizing p index done with
  | nil => simp [readIndex]
  | cons k keys ih =>
    obtain ⟨hk, hkeys⟩ := List.forall_mem_cons.mp hkeys
    obtain ⟨⟨hnonneg, hlt⟩, hoff⟩ := List.forall_mem_cons.mp hoff
    set n := (off k % 2 ^ 64).toNat with hn
    have hn' : (n : ℤ) = off k := by omega
    -- the buffer, cut at the row and at each of its three fields
    have hrow : b = p ++ indexRow k (off k) ++ (rowBytes off keys ++ q) := by
      rw [hbuf, rowBytes, List.flatMap_cons]
      simp [rowBytes]
    have hlen : b = p ++ beBytes 4 k.length
        ++ (k ++ beBytes 8 n ++ (rowBytes off keys ++ q)) := by
      rw [hrow, indexRow]
      simp [hn]
    have hkey : b = (p ++ beBytes 4 k.length) ++ k
        ++ (beBytes 8 n ++ (rowBytes off keys ++ q)) := by
      rw [hlen]
      simp
    have hpos : b = (p ++ beBytes 4 k.length ++ k) ++ beBytes 8 n
        ++ (rowBytes off keys ++ q) := by
      rw [hlen]
      simp
    have hrest : b = (p ++ indexRow k (off k)) ++ rowBytes off keys ++ q := by
      rw [hrow]
      simp
    have hnext : p.length + 4 + k.length + 8 = (p ++ indexRow k (off k)).length := by
      simp [indexRow]
      omega
    rw [List.length_cons, readIndex, fieldAt_eq hlen rfl hk, ok_bind,
      slice_eq hkey (by simp) rfl, ok_bind,
      fieldAt_eq hpos (by simp; omega) (by omega), ok_bind, hnext,
      asInt64_of_lt (by omega), hn', ih hrest hkeys hoff, List.foldl_cons, List.append_assoc,
      List.singleton_append]

/-! ## Serving -/

/-- **A file that serves the records `data`**: they stand at its front,
its index locates them, and its filter holds their keys. -/
structure Serves (P : BloomParams) (data : TableData) (t : TableFile) : Prop where
  file : ∃ rest, t.f = dataBytes data ++ rest
  sortedKeys : t.sortedKeys = data.map Prod.fst
  located : Located data t.index
  wellSized : t.bloomFilter.WellSized
  holds : ∀ r ∈ data, t.bloomFilter.Holds P r.1

/-- Records whose length fields hold their lengths, and whose values
decode. -/
def Readable (c : Codec) (data : TableData) : Prop :=
  ∀ r ∈ data, r.1.length < 2 ^ 32 ∧ r.2.length < 2 ^ 32 ∧ ∃ e, c.unmarshal r.2 = some e

/-- **A record is read back at its position.** -/
theorem readAt_eq {t : TableFile} {key : GoString} {val pre post : Bytes} {e : StatEntry}
    (hf : t.f = pre ++ recordBytes (key, val) ++ post) (hkey : key.length < 2 ^ 32)
    (hval : val.length < 2 ^ 32) (he : c.unmarshal val = some e) :
    t.readAt c pre.length = .ok e := by
  -- the three reads: the key's length, the value's, and the value
  have hkeyLen : t.f = pre ++ beBytes 4 key.length
      ++ (key ++ beBytes 4 val.length ++ val ++ post) := by
    rw [hf, recordBytes]
    simp
  have hvalLen : t.f = (pre ++ beBytes 4 key.length ++ key) ++ beBytes 4 val.length
      ++ (val ++ post) := by
    rw [hf, recordBytes]
    simp
  have hdata : t.f = (pre ++ beBytes 4 key.length ++ key ++ beBytes 4 val.length) ++ val
      ++ post := by
    rw [hf, recordBytes]
    simp
  have hk : beNat (beBytes 4 key.length) = key.length := beNat_beBytes_of_lt hkey
  have hv : beNat (beBytes 4 val.length) = val.length := beNat_beBytes_of_lt hval
  unfold readAt
  rw [fileReadAt_eq hkeyLen rfl (by simp), ok_bind, hk,
    fileReadAt_eq hvalLen (by simp [add_assoc]) (by simp), ok_bind, hv,
    fileReadAt_eq hdata (by simp; omega) rfl, ok_bind, he]

section

variable {data : TableData} {t : TableFile}

/-- A key is located exactly where the table of the records has it. -/
theorem Serves.readAt_of_index (h : Serves P data t) (hread : Readable c data) (path : SSTPath)
    (key : GoString) :
    t.index.lookup key = none ∧ (SSTable.mk path data).get c key = none ∨
      ∃ off e, t.index.lookup key = some off ∧ t.readAt c off = .ok e ∧
        (SSTable.mk path data).get c key = some e ∧ key ∈ data.map Prod.fst := by
  have hloc := h.located key
  unfold SSTable.get SSTable.index
  split at hloc
  · rename_i hnone
    exact .inl ⟨hloc, by rw [hnone]; rfl⟩
  · rename_i val hval
    obtain ⟨pre, post, hdata, hoff⟩ := hloc
    obtain ⟨hk, hv, e, he⟩ := hread (key, val) (by rw [hdata]; simp)
    obtain ⟨rest, hf⟩ := h.file
    have hrec : t.f = dataBytes pre ++ recordBytes (key, val) ++ (dataBytes post ++ rest) := by
      rw [hf, hdata]
      simp
    refine .inr ⟨_, e, hoff, readAt_eq hrec hk hv he, by rw [hval]; exact he, ?_⟩
    rw [hdata]
    simp

/-- **`Get` answers as the table of the records does.** -/
theorem Serves.get_eq (h : Serves P data t) (hread : Readable c data) (path : SSTPath)
    (key : GoString) : t.get P c key = .ok ((SSTable.mk path data).get c key) := by
  unfold get
  rcases h.readAt_of_index hread path key with
    ⟨hnone, hget⟩ | ⟨off, e, hoff, hat, hget, hmem⟩
  · obtain ⟨b, hb⟩ := h.wellSized.mayContain_isOk (P := P) key
    rw [hb, ok_bind, hget]
    -- an absent key may pass the filter, and then the index turns it away
    cases b with
    | true => simp only [if_true, hnone]; rfl
    | false => rfl
  · obtain ⟨r, hr, rfl⟩ := List.mem_map.mp hmem
    rw [h.wellSized.mayContain_of_holds (h.holds r hr), ok_bind, hget]
    simp only [if_true, hoff]
    rw [hat]
    rfl

/-- **And so does `Scan`.** -/
theorem Serves.scan_eq (h : Serves P data t) (hread : Readable c data) (path : SSTPath)
    (keep : StatEntry → Bool) :
    ∃ es, t.scan c keep = .ok es ∧ (SSTable.mk path data).scan c keep = some es := by
  -- key by key, the file and the table have the same entry
  have hmapM : ∀ d : TableData, (∀ r ∈ d, r ∈ data) → ∃ es,
      (d.map Prod.fst).mapM (fun key => t.readAt c ((t.index.lookup key).getD 0)) = .ok es ∧
      d.mapM (fun r => (SSTable.mk path data).get c r.1) = some es := by
    intro d
    induction d with
    | nil => exact fun _ => ⟨[], rfl, rfl⟩
    | cons r d ih =>
      intro hd
      obtain ⟨es, hfile, htable⟩ := ih fun x hx => hd x (by simp [hx])
      rcases h.readAt_of_index hread path r.1 with
        ⟨-, hget⟩ | ⟨off, e, hoff, hat, hget, -⟩
      · obtain ⟨val, hval⟩ := SSTable.exists_index_of_mem (t := ⟨path, data⟩) (hd r (by simp))
        obtain ⟨-, -, e, he⟩ := hread (r.1, val) (SSTable.index_eq_some hval)
        rw [SSTable.get, hval, Option.bind_some, he] at hget
        exact absurd hget (by simp)
      · refine ⟨e :: es, ?_, ?_⟩
        · rw [List.map_cons, List.mapM_cons, hoff, Option.getD_some, hat, ok_bind, hfile, ok_bind]
          rfl
        · rw [List.mapM_cons, hget, htable]
          rfl
  obtain ⟨es, hfile, htable⟩ := hmapM data fun r hr => hr
  refine ⟨es.filter keep, ?_, ?_⟩
  · unfold scan
    rw [h.sortedKeys, hfile, ok_bind]
    rfl
  · unfold SSTable.scan
    rw [htable]
    rfl

end

end TableFile

end Metastore

end TftAnalytics

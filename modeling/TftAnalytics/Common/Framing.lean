import TftAnalytics.Common.Bytes
import Mathlib.Data.List.Induction
/-!
# Framing — scanning a log of records

A log is read by taking one record after another off its front until no
whole record is left. A framing is such a decoder, and `scan` is the loop
around it. What a scan does with a concatenation of encoded records
followed by anything is settled here once, for every format.
-/

namespace TftAnalytics

/-- A record decoder: a record off the front and the bytes after it, or
nothing. A decoded record is never empty. -/
structure Framing (α : Type*) where
  dec : Bytes → Option (α × Bytes)
  shrinks : ∀ {b rest : Bytes} {a : α}, dec b = some (a, rest) → rest.length < b.length

namespace Framing

variable {α : Type*} (F : Framing α)

/-- At most `fuel` records off the front, and what is left. -/
def decodeAll : ℕ → Bytes → List α × Bytes
  | 0, b => ([], b)
  | fuel + 1, b =>
    match F.dec b with
    | none => ([], b)
    | some (a, rest) => (a :: (decodeAll fuel rest).1, (decodeAll fuel rest).2)

/-- **The records of a log, and the bytes behind the last of them.** A
record holds a byte, so a log's length bounds their number. -/
def scan (b : Bytes) : List α × Bytes := F.decodeAll b.length b

/-- Fuel past the length changes nothing. -/
theorem decodeAll_eq_scan : ∀ (fuel : ℕ) (b : Bytes), b.length ≤ fuel →
    F.decodeAll fuel b = F.scan b := by
  suffices h : ∀ n fuel fuel' b, b.length ≤ n → b.length ≤ fuel → b.length ≤ fuel' →
      F.decodeAll fuel b = F.decodeAll fuel' b by
    exact fun fuel b hb => h b.length fuel b.length b le_rfl hb le_rfl
  intro n
  induction n with
  | zero =>
    intro fuel fuel' b hn _ _
    have hdec : F.dec b = none := by
      cases hd : F.dec b with
      | none => rfl
      | some p =>
        obtain ⟨a, rest⟩ := p
        have := F.shrinks hd
        omega
    cases fuel <;> cases fuel' <;> simp [decodeAll, hdec]
  | succ n ih =>
    intro fuel fuel' b hn hf hf'
    cases hd : F.dec b with
    | none => cases fuel <;> cases fuel' <;> simp [decodeAll, hd]
    | some p =>
      obtain ⟨a, rest⟩ := p
      have hlt := F.shrinks hd
      obtain ⟨f, rfl⟩ : ∃ f, fuel = f + 1 := ⟨fuel - 1, by omega⟩
      obtain ⟨f', rfl⟩ : ∃ f', fuel' = f' + 1 := ⟨fuel' - 1, by omega⟩
      simp only [decodeAll, hd]
      rw [ih f f' rest (by omega) (by omega) (by omega)]

/-- The scan stops at the first place no record can be read. -/
theorem scan_of_none {b : Bytes} (h : F.dec b = none) : F.scan b = ([], b) := by
  unfold scan
  cases b.length <;> simp [decodeAll, h]

/-- And steps over each record it reads. -/
theorem scan_of_some {b rest : Bytes} {a : α} (h : F.dec b = some (a, rest)) :
    F.scan b = (a :: (F.scan rest).1, (F.scan rest).2) := by
  have hlt := F.shrinks h
  obtain ⟨n, hn⟩ : ∃ n, b.length = n + 1 := ⟨b.length - 1, by omega⟩
  rw [scan, hn]
  simp only [decodeAll, h]
  rw [F.decodeAll_eq_scan n rest (by omega)]

/-- `c` is an encoding of `a`: the decoder reads `a` off its front,
whatever follows. -/
def Chunk (c : Bytes) (a : α) : Prop := ∀ rest, F.dec (c ++ rest) = some (a, rest)

/-! ## Appending to a log -/

/-- A decoder is stable when bytes added behind a record do not change how
it reads. A decoder that seeks over a payload without looking at it is not. -/
def Stable : Prop :=
  ∀ {b rest : Bytes} {a : α}, F.dec b = some (a, rest) → ∀ c, F.dec (b ++ c) = some (a, rest ++ c)

variable {F}

/-- **A scan of a longer log continues from what the shorter scan left.** -/
theorem Stable.scan_append (h : F.Stable) (b c : Bytes) :
    F.scan (b ++ c) = ((F.scan b).1 ++ (F.scan ((F.scan b).2 ++ c)).1,
      (F.scan ((F.scan b).2 ++ c)).2) := by
  induction hn : b.length using Nat.strong_induction_on generalizing b with
  | _ n ih =>
    cases hd : F.dec b with
    | none => simp [F.scan_of_none hd]
    | some p =>
      obtain ⟨a, rest⟩ := p
      have hrest := ih rest.length (hn ▸ F.shrinks hd) rest rfl
      rw [F.scan_of_some hd, F.scan_of_some (h hd c), hrest]
      simp

/-- A scan that leaves nothing steps aside for what is appended. -/
theorem Stable.scan_append_of_whole (h : F.Stable) {b : Bytes} (hb : (F.scan b).2 = [])
    (c : Bytes) : F.scan (b ++ c) = ((F.scan b).1 ++ (F.scan c).1, (F.scan c).2) := by
  rw [h.scan_append, hb, List.nil_append]

/-- An encoded record alone is scanned as that record. -/
theorem scan_chunk {c : Bytes} {a : α} (hc : F.Chunk c a) (hnone : F.dec [] = none) :
    F.scan c = ([a], []) := by
  have hdec : F.dec c = some (a, []) := by simpa using hc []
  rw [F.scan_of_some hdec, F.scan_of_none hnone]

/-- **A record cut short is no record**: what a stable decoder read off the
piece it would read off the whole, with the missing bytes left over. -/
theorem Stable.dec_take (h : F.Stable) {c : Bytes} {a : α} (hc : F.Chunk c a) {n : ℕ}
    (hn : n < c.length) : F.dec (c.take n) = none := by
  cases hd : F.dec (c.take n) with
  | none => rfl
  | some p =>
    have hlong := h hd (c.drop n)
    have hwhole : F.dec c = some (a, []) := by simpa using hc []
    rw [List.take_append_drop, hwhole] at hlong
    simp only [Option.some.injEq, Prod.mk.injEq] at hlong
    have hlen := congrArg List.length hlong.2
    simp only [List.length_nil, List.length_append, List.length_drop] at hlen
    omega

/-! ## A log cut anywhere -/

/-- Of records laid out one after another, those that end within the first
`n` bytes. -/
def wholeIn (enc : α → Bytes) (n : ℕ) (rs : List α) : List α :=
  (rs.zipIdx.filter fun p => ((rs.take (p.2 + 1)).flatMap enc).length ≤ n).map Prod.fst

variable {enc : α → Bytes} {n : ℕ}

theorem mem_of_mem_wholeIn {rs : List α} {r : α} (h : r ∈ wholeIn enc n rs) : r ∈ rs := by
  obtain ⟨p, hp, rfl⟩ := List.mem_map.mp h
  exact List.fst_mem_of_mem_zipIdx (List.mem_filter.mp hp).1

theorem wholeIn_of_le {rs : List α} (h : (rs.flatMap enc).length ≤ n) : wholeIn enc n rs = rs := by
  rw [wholeIn, List.filter_eq_self.mpr, List.zipIdx_map_fst]
  intro p _
  have hsplit : (rs.flatMap enc).length
      = ((rs.take (p.2 + 1)).flatMap enc).length + ((rs.drop (p.2 + 1)).flatMap enc).length := by
    rw [← List.length_append, ← List.flatMap_append, List.take_append_drop]
  simp only [decide_eq_true_eq]
  omega

/-- The last record is whole if the log ends within the cut. -/
theorem wholeIn_append_singleton (rs : List α) (r : α) :
    wholeIn enc n (rs ++ [r])
      = wholeIn enc n rs ++ if ((rs ++ [r]).flatMap enc).length ≤ n then [r] else [] := by
  have hfirst : rs.zipIdx.filter
        (fun p => (((rs ++ [r]).take (p.2 + 1)).flatMap enc).length ≤ n)
      = rs.zipIdx.filter fun p => ((rs.take (p.2 + 1)).flatMap enc).length ≤ n := by
    refine List.filter_congr fun p hp => ?_
    have hlt : p.2 < rs.length := by simpa using List.snd_lt_add_of_mem_zipIdx hp
    rw [List.take_append_of_le_length (by omega)]
  rw [wholeIn, List.zipIdx_append, List.filter_append, hfirst, List.map_append, wholeIn]
  congr 1
  have htake : (rs ++ [r]).take (rs.length + 1) = rs ++ [r] := List.take_of_length_le (by simp)
  rw [List.zipIdx_singleton, Nat.zero_add, List.filter_singleton, htake]
  by_cases hfit : ((rs ++ [r]).flatMap enc).length ≤ n
  · rw [if_pos hfit, decide_eq_true hfit]
    rfl
  · rw [if_neg hfit, decide_eq_false hfit]
    rfl

/-- Records laid out one after another are scanned one after another. -/
theorem scan_flatMap_append {rs : List α} (hrs : ∀ r ∈ rs, F.Chunk (enc r) r) (c : Bytes) :
    F.scan (rs.flatMap enc ++ c) = (rs ++ (F.scan c).1, (F.scan c).2) := by
  induction rs with
  | nil => rfl
  | cons r rs ih =>
    rw [List.flatMap_cons, List.append_assoc, F.scan_of_some (hrs r (by simp) _),
      ih fun x hx => hrs x (List.mem_cons_of_mem _ hx)]
    rfl

/-- **What a scan finds in a cut log**: the records that lie wholly within
the cut, wherever it falls. -/
theorem Stable.scan_take (h : F.Stable) (hnil : F.dec [] = none) {rs : List α}
    (hrs : ∀ r ∈ rs, F.Chunk (enc r) r) :
    (F.scan ((rs.flatMap enc).take n)).1 = wholeIn enc n rs := by
  induction rs using List.reverseRecOn with
  | nil => simp [F.scan_of_none hnil, wholeIn]
  | append_singleton rs r ih =>
    have hrs' : ∀ x ∈ rs, F.Chunk (enc x) x := fun x hx => hrs x (List.mem_append_left _ hx)
    have hchunk : F.Chunk (enc r) r := hrs r (by simp)
    have hlen : ((rs ++ [r]).flatMap enc).length = (rs.flatMap enc).length + (enc r).length := by
      rw [List.flatMap_append, List.flatMap_singleton, List.length_append]
    rw [wholeIn_append_singleton, hlen]
    rcases Nat.lt_or_ge n (rs.flatMap enc).length with hn | hn
    · -- the cut falls into an earlier record
      rw [List.flatMap_append, List.take_append_of_le_length hn.le, ih hrs', if_neg (by omega),
        List.append_nil]
    · rw [wholeIn_of_le hn, List.flatMap_append, List.flatMap_singleton, List.take_append,
        List.take_of_length_le hn, scan_flatMap_append hrs']
      rcases Nat.lt_or_ge (n - (rs.flatMap enc).length) (enc r).length with hcut | hcut
      · rw [F.scan_of_none (h.dec_take hchunk hcut), if_neg (by omega)]
      · rw [List.take_of_length_le hcut, scan_chunk hchunk hnil, if_pos (by omega)]

end Framing

end TftAnalytics

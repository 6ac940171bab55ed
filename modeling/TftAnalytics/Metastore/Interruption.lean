import TftAnalytics.Metastore.Durability
/-!
# Metastore — interrupted flushes and compactions

A flush writes a table before it truncates the log, and a compaction
writes the merged table before it removes the sources, so wherever either
stops the data is still somewhere. That the *order* of the pieces does not
matter either is a property of `pickNewer`: it holds on clocks with
non-negative counters and sums inside `int64`, and fails outside. Whatever
earlier starts have lost, it is enough that what they read of the log are
entries of that kind.
-/

namespace TftAnalytics

namespace Metastore

/-- The rank a read of `key` returns. -/
def Store.readRank (env : Env) (s : Store) (key : GoString) : Option (ℤ ×ₗ ℤ) :=
  (s.tree.read env.codec key).1.map clockRank

/-- **A log that reads back**: what of its data can be decoded are entries
under their own keys that can be encoded again, with such clocks. -/
def Legible (c : Codec) (log : Bytes) : Prop :=
  ∀ r ∈ logged log, ∀ e ∈ c.unmarshal r.2, entryKey e = r.1 ∧ Clocked e ∧ c.marshal e ≠ none

instance (c : Codec) (log : Bytes) : Decidable (Legible c log) :=
  inferInstanceAs (Decidable (∀ r ∈ logged log, ∀ e ∈ c.unmarshal r.2, _))

/-- A stop of the machine finds no record behind a torn one, or leaves a log
that reads back. -/
def History.LeavesLegible (env : Env) (h : History) (a : Action) : Prop :=
  ∀ log ∈ a.left env h.store, h.Spares env a ∨ Legible env.codec log

instance (env : Env) (h : History) (a : Action) : Decidable (h.LeavesLegible env a) :=
  inferInstanceAs (Decidable (∀ log ∈ a.left env h.store, _))

/-- **So does every stop**, from `h` on. -/
def StopsLegible (env : Env) (maxMemBytes : ℤ) : History → List Action → Prop
  | _, [] => True
  | h, a :: acts =>
    h.LeavesLegible env a ∧ StopsLegible env maxMemBytes (h.step env maxMemBytes a) acts

instance decidableStopsLegible (env : Env) (maxMemBytes : ℤ) :
    ∀ (h : History) (acts : List Action), Decidable (StopsLegible env maxMemBytes h acts)
  | _, [] => isTrue trivial
  | h, a :: acts =>
    have := decidableStopsLegible env maxMemBytes (h.step env maxMemBytes a) acts
    inferInstanceAs (Decidable (_ ∧ _))

/-- **The states in which a flush starts**: a tree reached by a history
whose log buries nothing now, as it is, or in the middle of a write that
found complete records in the log. -/
inductive FlushStart (env : Env) (maxMemBytes : ℤ) (acts : List Action) : Store → Prop
  | flush (hburied : (history env maxMemBytes acts).buried = false) :
      FlushStart env maxMemBytes acts (history env maxMemBytes acts).store
  | write (e : StatEntry) (val : Bytes) (hclocked : Clocked e)
      (hval : env.codec.marshal e = some val)
      (hburied : (history env maxMemBytes acts).buried = false)
      (hwhole : Whole (history env maxMemBytes acts).store.disk.wal) :
      FlushStart env maxMemBytes acts ((history env maxMemBytes acts).store.applyEntry env e val)

section
variable {ρ : Type*} [LinearOrder ρ] {R : Ranking ρ} {env : Env} {s : Store}

/-- An operation that keeps every rank, settled. -/
theorem Exit.Keeps.settle {x : Exit} (hx : x.Keeps R env s) (hl : Logged R env s)
    (maxMemBytes : ℤ) (cut : ℕ) :
    Inv R env (x.settle env maxMemBytes cut) ∧
      (x.settle env maxMemBytes cut).tree.top R env.codec = s.tree.top R env.codec := by
  cases x with
  | returned s' err => exact ⟨hx.1, hx.2.1⟩
  | crashed d =>
    obtain ⟨hinv, -, htop⟩ := ((hx.2 hl).survive cut).newLSMTree maxMemBytes
    exact ⟨hinv, htop⟩

end

/-- **A whole history**, whatever it has lost. -/
theorem sound_history {env : Env} {maxMemBytes : ℤ} {acts : List Action}
    (hclocked : ∀ a ∈ acts, ∀ e ∈ a.given, Clocked e)
    (hreads : StopsLegible env maxMemBytes (.init env maxMemBytes) acts) :
    (history env maxMemBytes acts).Sound (clockRanking fun _ => True) env := by
  suffices h : ∀ (acts : List Action) (h : History), h.Sound (clockRanking fun _ => True) env →
      (∀ a ∈ acts, ∀ e ∈ a.given, Clocked e) → StopsLegible env maxMemBytes h acts →
      (acts.foldl (History.step env maxMemBytes) h).Sound (clockRanking fun _ => True) env from
    h acts _ good_init.sound hclocked hreads
  intro acts
  induction acts with
  | nil => exact fun _ hs _ _ => hs
  | cons a acts ih =>
    intro h hs hclocked hreads
    obtain ⟨hfirst, hrest⟩ := hreads
    refine ih _ (hs.step maxMemBytes (fun e he => ⟨trivial, hclocked a (by simp) e he⟩)
      fun log hlog => (hfirst log hlog).imp_right fun hlegible r hr e he => ?_)
      (fun b hb => hclocked b (by simp [hb])) hrest
    obtain ⟨hkey, hclocks, hmar⟩ := hlegible r hr e he
    exact ⟨⟨trivial, hclocks⟩, hkey, Option.ne_none_iff_exists'.mp hmar⟩

theorem readRank_eq {env : Env} {P : StatEntry → Prop} {s s' : Store}
    (h : Inv (clockRanking P) env s) (h' : Inv (clockRanking P) env s')
    (htop : s'.tree.top (clockRanking P) env.codec = s.tree.top (clockRanking P) env.codec)
    (key : GoString) : s'.readRank env key = s.readRank env key := by
  have hrank : optRank (clockRanking P).rank (s'.tree.read env.codec key).1
      = optRank (clockRanking P).rank (s.tree.read env.codec key).1 := by
    rw [(h'.read key).2.1, (h.read key).2.1, htop]
  exact optRank_eq_iff.mp hrank

/-- **An interrupted flush or compaction changes no rank.** On clocks with
non-negative counters and sums inside `int64`, written or read back,
wherever a flush or a compaction stops, with an error or with the machine
and a new start, every read returns the rank it returned before. -/
theorem readRank_interrupted (env : Env) (maxMemBytes : ℤ) (acts : List Action)
    (hclocked : ∀ a ∈ acts, ∀ e ∈ a.given, Clocked e)
    (hreads : StopsLegible env maxMemBytes (.init env maxMemBytes) acts) {s : Store}
    (hs : FlushStart env maxMemBytes acts s) (io : FlushOutcome) (key : GoString) :
    ((flushLocked env io s).settle env maxMemBytes io.walCut).readRank env key
        = s.readRank env key ∧
      ((compactLocked env io 0 s).settle env maxMemBytes io.walCut).readRank env key
        = s.readRank env key := by
  have hsound := sound_history hclocked hreads
  obtain ⟨hinv, hlogged⟩ : Inv (clockRanking fun _ => True) env s ∧
      Logged (clockRanking fun _ => True) env s := by
    cases hs with
    | flush hburied => exact ⟨hsound.inv, hsound.logged hburied⟩
    | write e val he hval hburied hwhole =>
      have hst : e ∈ Storable (clockRanking fun _ => True) env.codec (entryKey e) :=
        ⟨⟨trivial, he⟩, rfl, val, hval⟩
      exact ⟨hsound.inv.applyEntry hst val,
        (hsound.logged hburied).applyEntry hsound.inv hwhole hst hval⟩
  obtain ⟨hflush, hflushTop⟩ := (hinv.flushLocked io).settle hlogged maxMemBytes io.walCut
  obtain ⟨hcompact, hcompactTop⟩ := (hinv.compactLocked io).settle hlogged maxMemBytes io.walCut
  exact ⟨readRank_eq hinv hflush hflushTop key, readRank_eq hinv hcompact hcompactTop key⟩

/-- A flush whose compaction is cut off after it removed its sources. -/
def cutCompaction : FlushOutcome := { FlushOutcome.ok with unlinkCrash := true }

/-- Five writes of one key, each but the last flushed. -/
def fiveWrites (x y z : StatEntry) : List Action :=
  [.write z .ok, .flush .ok, .write z .ok, .flush .ok, .write z .ok, .flush .ok, .write y .ok,
    .flush .ok, .write x .ok]

/-- A write behind a torn record, lost at the next start; and a flush and a
write after it. -/
def lostWrite : List Action :=
  [.write (sampleEntry 97 1) .ok, .crashWrite (sampleEntry 97 2) 60, .write (sampleEntry 97 2) .ok,
    .crash 0, .flush .ok, .write (sampleEntry 97 3) .ok]

/-- Versions of three ranks, of which the largest is neither the first nor
the last; and a history that has lost one. -/
theorem readRank_interrupted_five :
    (((flushLocked risingEnv cutCompaction (history risingEnv 0 (fiveWrites (sampleEntry 97 2)
        (sampleEntry 97 3) (sampleEntry 97 1))).store).settle risingEnv 0 0).readRank risingEnv
          [97, 58, 58, 58]
        = (history risingEnv 0 (fiveWrites (sampleEntry 97 2) (sampleEntry 97 3)
          (sampleEntry 97 1))).store.readRank risingEnv [97, 58, 58, 58] ∧
      ((compactLocked risingEnv cutCompaction 0 (history risingEnv 0 (fiveWrites
        (sampleEntry 97 2) (sampleEntry 97 3) (sampleEntry 97 1))).store).settle risingEnv 0
          0).readRank risingEnv [97, 58, 58, 58]
        = (history risingEnv 0 (fiveWrites (sampleEntry 97 2) (sampleEntry 97 3)
          (sampleEntry 97 1))).store.readRank risingEnv [97, 58, 58, 58]) ∧
    ((flushLocked risingEnv cutCompaction (history risingEnv 0 lostWrite).store).settle risingEnv 0
        0).readRank risingEnv [97, 58, 58, 58]
      = (history risingEnv 0 lostWrite).store.readRank risingEnv [97, 58, 58, 58] :=
  ⟨readRank_interrupted risingEnv 0 _ (by decide) (by decide) (.flush (by decide)) cutCompaction _,
    (readRank_interrupted risingEnv 0 _ (by decide) (by decide) (.flush (by decide)) cutCompaction
      _).1⟩

/-! ## Clocks on which the order matters -/

/-- A clock of two counters. -/
def twoClock (m n : Int64) : VectorClock :=
  ⟨⟨[⟨[109], m⟩, ⟨[110], n⟩], by simp [List.NodupKeys, List.keys]⟩, by
    simp [AList.keys, List.keys]
    decide⟩

/-- Versions of one key: of the first three each beats the next, and the
third the first; so too of the last three. -/
def cyclic : ℕ → StatEntry
  | 0 => { sampleEntry 97 0 with clock := some (twoClock 3 (-5)) }
  | 1 => { sampleEntry 97 0 with clock := none }
  | 2 => { sampleEntry 97 0 with clock := some (oneClock [110] (-1)) }
  | 3 => { sampleEntry 97 0 with clock := some (twoClock 1 Int64.maxValue) }
  | 4 => { sampleEntry 97 0 with clock := some (oneClock [110] Int64.maxValue) }
  | _ => { sampleEntry 97 0 with clock := some (oneClock [111] 1) }

/-- Their encodings. -/
def cyclicEnv : Env where
  codec := .ofTable
    [(cyclic 0, [10, 1, 97, 82, 23, 10, 5, 10, 1, 109, 16, 3, 10, 14, 10, 1, 110, 16, 251, 255, 255,
        255, 255, 255, 255, 255, 255, 1]),
      (cyclic 1, [10, 1, 97]),
      (cyclic 2, [10, 1, 97, 82, 16, 10, 14, 10, 1, 110, 16, 255, 255, 255, 255, 255, 255, 255, 255,
        255, 1]),
      (cyclic 3, [10, 1, 97, 82, 22, 10, 5, 10, 1, 109, 16, 1, 10, 13, 10, 1, 110, 16, 255, 255,
        255, 255, 255, 255, 255, 255, 127]),
      (cyclic 4, [10, 1, 97, 82, 15, 10, 13, 10, 1, 110, 16, 255, 255, 255, 255, 255, 255, 255, 255,
        127]),
      (cyclic 5, [10, 1, 97, 82, 7, 10, 5, 10, 1, 111, 16, 1])] (by decide)
  nano := fun n => n
  nano_strictMono := strictMono_id

/-! ## A log that does not read back -/

/-- An entry without a clock. -/
def unclocked (id : GoString) : StatEntry := { sampleEntry 97 0 with entityId := id, clock := none }

/-- Two entries whose encodings differ in the last byte. -/
def spliceEnv : Env where
  codec := .ofTable [(unclocked [97, 98], [10, 2, 97, 98]), (unclocked [97, 0], [10, 2, 97, 0])]
    (by decide)
  nano := fun n => n
  nano_strictMono := strictMono_id

/-- The machine stops before the last byte of a record, and then behind the
first byte of the next. -/
def splice : List Action :=
  [.crashWrite (unclocked [97, 98]) 25, .crashWrite (unclocked [97, 98]) 26]

/-- **Outside such clocks an interrupted compaction changes a rank**: with a
negative counter, and with a sum that wraps. So does a flush of an entry
that was read back under the key of another. -/
theorem readRank_interrupted_unclocked :
    ((¬ ∀ (env : Env) (maxMemBytes : ℤ) (acts : List Action),
      (∀ a ∈ acts, ∀ e ∈ a.given, clockSum e.clock < 2 ^ 63) →
      Unburied env maxMemBytes (.init env maxMemBytes) acts → ∀ s,
      FlushStart env maxMemBytes acts s → ∀ io key,
        ((flushLocked env io s).settle env maxMemBytes io.walCut).readRank env key
          = s.readRank env key) ∧
    ¬ ∀ (env : Env) (maxMemBytes : ℤ) (acts : List Action),
      (∀ a ∈ acts, ∀ e ∈ a.given, ∀ p ∈ (clockMap e.clock).entries, 0 ≤ p.2) →
      Unburied env maxMemBytes (.init env maxMemBytes) acts → ∀ s,
      FlushStart env maxMemBytes acts s → ∀ io key,
        ((flushLocked env io s).settle env maxMemBytes io.walCut).readRank env key
          = s.readRank env key) ∧
    ¬ ∀ (env : Env) (maxMemBytes : ℤ) (acts : List Action),
      (∀ a ∈ acts, ∀ e ∈ a.given, Clocked e) → ∀ s, FlushStart env maxMemBytes acts s →
      Whole s.disk.wal → ∀ io key,
        ((flushLocked env io s).settle env maxMemBytes io.walCut).readRank env key
          = s.readRank env key := by
  refine ⟨⟨fun h => ?_, fun h => ?_⟩, fun h => ?_⟩
  · have hne : ((flushLocked cyclicEnv cutCompaction (history cyclicEnv 0 (fiveWrites (cyclic 0)
        (cyclic 1) (cyclic 2))).store).settle cyclicEnv 0 0).readRank cyclicEnv [97, 58, 58, 58]
        ≠ (history cyclicEnv 0 (fiveWrites (cyclic 0) (cyclic 1) (cyclic 2))).store.readRank
          cyclicEnv [97, 58, 58, 58] := by decide
    exact hne (h cyclicEnv 0 _ (by decide) (by decide) _ (.flush (by decide)) cutCompaction _)
  · have hne : ((flushLocked cyclicEnv cutCompaction (history cyclicEnv 0 (fiveWrites (cyclic 3)
        (cyclic 4) (cyclic 5))).store).settle cyclicEnv 0 0).readRank cyclicEnv [97, 58, 58, 58]
        ≠ (history cyclicEnv 0 (fiveWrites (cyclic 3) (cyclic 4) (cyclic 5))).store.readRank
          cyclicEnv [97, 58, 58, 58] := by decide
    exact hne (h cyclicEnv 0 _ (by decide) (by decide) _ (.flush (by decide)) cutCompaction _)
  · have hne : ((flushLocked spliceEnv .ok (history spliceEnv 0 splice).store).settle spliceEnv 0
        0).readRank spliceEnv [97, 98, 58, 58, 58]
        ≠ (history spliceEnv 0 splice).store.readRank spliceEnv [97, 98, 58, 58, 58] := by decide
    exact hne (h spliceEnv 0 splice (by decide) _ (.flush (by decide)) (by decide) .ok _)

end Metastore

end TftAnalytics

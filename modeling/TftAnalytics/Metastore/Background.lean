import TftAnalytics.Metastore.Helpers.History
import TftAnalytics.Metastore.Model.Background
import TftAnalytics.Metastore.Convergence
/-!
# Metastore — work in the background is not seen

A read folds the versions of a key newest first, a scan oldest first, a
memtable and a compaction in orders of their own. Under a ranking that
tells the entries of a key apart all of them arrive at the one entry of
the largest rank the tree holds, and background work moves no rank.
Entries that `pickNewer` cannot tell apart are told apart by the order of
the fold, and then a scan and a read differ.
-/

namespace TftAnalytics

namespace Metastore

variable {ρ : Type*} [LinearOrder ρ] {R : Ranking ρ} {env : Env} {maxMemBytes : ℤ}

/-! ## Scans by rank -/

/-- The entries a scan goes through, in order. -/
def LSMTree.scanned (t : LSMTree) (c : Codec) : List StatEntry :=
  t.memtable.scan (fun _ => true)
    ++ t.levels.flatten.flatMap fun sst => (sst.scan c fun _ => true).getD []

theorem scan_eq_foldl {t : LSMTree} {c : Codec} (h : t.immutable = none) :
    t.scan c (fun _ => true) = (t.scanned c).foldl mergeEntry ∅ := by
  unfold LSMTree.scan LSMTree.scanned
  rw [h, List.foldl_append, List.foldl_flatMap, List.foldl_flatten]
  rfl

/-- **What a scan goes through** for a key is what the tree holds for it. -/
theorem Inv.mem_scanned {s : Store} (h : Inv R env s) {e : StatEntry} :
    e ∈ s.tree.scanned env.codec ↔ ∃ key, e ∈ s.tree.versions env.codec key := by
  have hmem : e ∈ s.tree.memtable.scan (fun _ => true) ↔
      ∃ key, s.tree.memtable.get key = some e := by
    simp only [MemTable.scan, List.filter_true, List.mem_map, MemTable.get]
    constructor
    · rintro ⟨p, hp, rfl⟩
      exact ⟨p.1, AList.mem_lookup_iff.mpr hp⟩
    · rintro ⟨key, hkey⟩
      exact ⟨⟨key, e⟩, AList.mem_lookup_iff.mp hkey, rfl⟩
  -- a tree that has not compacted yet has no level 1
  have hlevels : s.tree.levels.flatten = s.tree.level 0 ++ s.tree.level 1 := by
    rcases h.levels with hl | hl
    · have hnil : s.tree.level 1 = [] := by rw [LSMTree.level, hl]; rfl
      rw [hnil, hl]
      simp
    · rw [hl]
      simp
  have htables : ∀ t ∈ s.tree.level 0 ++ s.tree.level 1, t.Ok R env.codec := by
    intro t ht
    rcases List.mem_append.mp ht with ht | ht
    · exact h.table_ok ht
    · exact h.table_ok ht
  unfold LSMTree.scanned LSMTree.versions
  rw [hlevels, List.mem_append, hmem, List.mem_flatMap]
  simp only [List.mem_append (s := (s.tree.memtable.get _).toList), Option.mem_toList, mem_hits,
    exists_or]
  refine or_congr_right ⟨?_, ?_⟩
  · rintro ⟨t, ht, he⟩
    obtain ⟨es, hes, hiff⟩ := (htables t ht).scan_eq
    rw [hes, Option.getD_some] at he
    obtain ⟨key, hkey⟩ := (hiff e).mp he
    exact ⟨key, t, ht, hkey⟩
  · rintro ⟨key, t, ht, hkey⟩
    obtain ⟨es, hes, hiff⟩ := (htables t ht).scan_eq
    exact ⟨t, ht, by rw [hes, Option.getD_some]; exact (hiff e).mpr ⟨key, hkey⟩⟩

/-- The versions of a key are storable under it. -/
theorem Inv.versions_storable {s : Store} (h : Inv R env s) {key : GoString} :
    ∀ e ∈ s.tree.versions env.codec key, e ∈ Storable R env.codec key := by
  intro e he
  rcases List.mem_append.mp he with he | he
  · exact h.mem key e (Option.mem_toList.mp he)
  · refine hits_storable (fun t ht => ?_) e he
    rcases List.mem_append.mp ht with ht | ht
    · exact h.table_ok ht
    · exact h.table_ok ht

/-- **A scan finds an entry of the largest rank**, as a read does. -/
theorem Inv.scan {s : Store} (h : Inv R env s) (key : GoString) :
    (∀ e ∈ (s.tree.scan env.codec fun _ => true).lookup key, e ∈ Storable R env.codec key) ∧
      optRank R.rank ((s.tree.scan env.codec fun _ => true).lookup key)
        = s.tree.top R env.codec key := by
  have hstored : ∀ e ∈ s.tree.scanned env.codec, e ∈ Storable R env.codec (entryKey e) := by
    intro e he
    obtain ⟨key', hkey'⟩ := h.mem_scanned.mp he
    have hst := h.versions_storable e hkey'
    exact ⟨hst.1, rfl, hst.2.2⟩
  rw [scan_eq_foldl h.immutable]
  refine ⟨(lookup_merged hstored key).1, (lookup_merged hstored key).2.trans ?_⟩
  refine topRank_congr fun e => ?_
  rw [List.mem_filter, h.mem_scanned, decide_eq_true_eq]
  constructor
  · rintro ⟨⟨key', hkey'⟩, rfl⟩
    rwa [(h.versions_storable e hkey').2.1]
  · exact fun he => ⟨⟨key, he⟩, (h.versions_storable e he).2.1⟩

/-! ## Background work by rank -/

/-- **Background work changes no rank**, however its calls to the file
system go. -/
theorem Inv.background {s : Store} (h : Inv R env s) (b : Background) :
    (b.exit env s).1.Keeps R env s := by
  cases b with
  | flush io => exact h.flushLocked io
  | compact io => exact h.compactLocked io
  | evict =>
    refine ⟨h.setCache h.cache_wf.evict fun el hel => h.cache el (LRUCache.mem_evict hel), rfl,
      fun hl => ⟨hl.log, hl.mem⟩, .inl rfl⟩
  | read key =>
    obtain ⟨-, -, hinv, htop⟩ := h.read key
    exact ⟨hinv, htop,
      fun hl => ⟨by rw [htop]; exact hl.log, by simp only [read_memtable]; exact hl.mem⟩, .inl rfl⟩
  | reopen io => exact h.flushLocked io

/-- **One piece of background work in a history.** -/
theorem History.Good.background {h : History} (hg : h.Good R env) (maxMemBytes : ℤ)
    {b : Background} (hrests : (b.exit env h.store).1.Rests b.Reopens h.buried) :
    (h.background env maxMemBytes b).Good R env ∧
      (h.background env maxMemBytes b).store.tree.top R env.codec
        = h.store.tree.top R env.codec := by
  have hkeeps := hg.inv.background b
  unfold History.background
  rcases hx : b.exit env h.store with ⟨⟨s, err⟩ | d, cut⟩ <;> rw [hx] at hkeeps hrests
  · obtain ⟨hinv, htop, hlogged, hwal⟩ := hkeeps
    -- an empty log stands for the memtable, whatever was buried in it before
    have hlog : h.buried = false ∨ s.disk.wal = [] → Logged R env s := by
      rintro (hb | hnil)
      · exact hlogged (hg.logged hb)
      · cases hb : h.buried with
        | false => exact hlogged (hg.logged hb)
        | true => exact hwal.resolve_left fun heq => hg.wal_ne hb (heq ▸ hnil)
    simp only
    split_ifs with hre
    · obtain ⟨hinv', hlogged', heq⟩ :=
        (hinv.recoverable (hlog (hrests hre))).newLSMTree maxMemBytes
      refine ⟨⟨hinv', fun _ => hlogged', by simp, fun e he => ?_⟩, heq.trans htop⟩
      show _ ≤ (newLSMTree env maxMemBytes s.disk).tree.top R env.codec _
      rw [heq, htop]
      exact hg.acked e he
    · refine ⟨⟨hinv, fun hb => hlog ?_, fun hb => ?_, fun e he => ?_⟩, htop⟩
      · cases hbur : h.buried with
        | false => exact .inl rfl
        | true => exact .inr (by simpa [hbur] using hb)
      · simp only [Bool.and_eq_true, decide_eq_true_eq] at hb
        exact hb.2
      · rw [htop]
        exact hg.acked e he
  · obtain ⟨hinv, hlogged, heq⟩ :=
      ((hkeeps.2 (hg.logged hrests)).survive cut).newLSMTree maxMemBytes
    refine ⟨⟨hinv, fun _ => hlogged, by simp, fun e he => ?_⟩, heq⟩
    show _ ≤ (newLSMTree env maxMemBytes (d.survive cut)).tree.top R env.codec _
    rw [heq]
    exact hg.acked e he

/-- **A whole run.** -/
theorem History.Good.run {h : History} (hg : h.Good R env) {ws : List Work}
    (hws : ∀ e ∈ givenEntries ws, R.Ok e) (hback : ReadsBack env maxMemBytes h ws) :
    (ws.foldl (History.work env maxMemBytes) h).Good R env := by
  induction ws generalizing h with
  | nil => exact hg
  | cons w ws ih =>
    obtain ⟨hsecure, hback⟩ := hback
    refine ih ?_ (fun e he => hws e ?_) hback
    · cases w with
      | action a =>
        refine (hg.step maxMemBytes (fun e he => hws e ?_) hsecure).1
        exact List.mem_filterMap.mpr ⟨.action a, by simp, he⟩
      | background b => exact (hg.background maxMemBytes hsecure).1
    · obtain ⟨w', hw', he'⟩ := List.mem_filterMap.mp he
      exact List.mem_filterMap.mpr ⟨w', by simp [hw'], he'⟩

/-- **A run of background work alone** leaves every rank where it was. -/
theorem History.Good.run_background {h : History} (hg : h.Good R env) {bs : List Background}
    (hback : ReadsBack env maxMemBytes h (bs.map .background)) :
    ((bs.map .background).foldl (History.work env maxMemBytes) h).Good R env ∧
      ((bs.map .background).foldl (History.work env maxMemBytes) h).store.tree.top R env.codec
        = h.store.tree.top R env.codec := by
  induction bs generalizing h with
  | nil => exact ⟨hg, rfl⟩
  | cons b bs ih =>
    obtain ⟨hsecure, hback⟩ := hback
    obtain ⟨hg', htop⟩ := hg.background maxMemBytes hsecure
    obtain ⟨hgood, htop'⟩ := ih hg' hback
    exact ⟨hgood, htop'.trans htop⟩

theorem readsBack_append {h : History} {ws ws' : List Work}
    (hback : ReadsBack env maxMemBytes h (ws ++ ws')) :
    ReadsBack env maxMemBytes h ws ∧
      ReadsBack env maxMemBytes (ws.foldl (History.work env maxMemBytes) h) ws' := by
  induction ws generalizing h with
  | nil => exact ⟨trivial, hback⟩
  | cons w ws ih =>
    obtain ⟨hsecure, hback⟩ := hback
    obtain ⟨hws, hws'⟩ := ih hback
    exact ⟨⟨hsecure, hws⟩, hws'⟩

/-! ## Entries told apart -/

/-- The number of entries an entry beats. -/
def beaten (es : List StatEntry) (e : StatEntry) : ℕ :=
  (es.toFinset.filter fun x => entryKey x = entryKey e ∧ Beats e x).card

theorem Beats.not_symm {a b : StatEntry} (h : Beats a b) : ¬ Beats b a :=
  fun h' => h.2.2 (h.1.symm.trans h'.2.1)

/-- In one order, the winner beats more. -/
theorem beaten_lt {es : List StatEntry} (hes : Ordered es) {a b : StatEntry} (ha : a ∈ es)
    (hb : b ∈ es) (hkey : entryKey a = entryKey b) (h : Beats a b) : beaten es b < beaten es a := by
  refine Finset.card_lt_card (Finset.ssubset_iff_of_subset ?_ |>.mpr ⟨b, ?_, ?_⟩)
  · intro x hx
    simp only [Finset.mem_filter, List.mem_toFinset] at hx ⊢
    obtain ⟨hxmem, hxkey, hbx⟩ := hx
    exact ⟨hxmem, hxkey.trans hkey.symm, hes.2 a ha b hb x hxmem hkey hxkey.symm h hbx⟩
  · simp only [Finset.mem_filter, List.mem_toFinset]
    exact ⟨hb, hkey.symm, h⟩
  · simp only [Finset.mem_filter, not_and]
    exact fun _ _ hbb => hbb.not_symm hbb

/-- **A ranking that tells the given entries apart.** -/
def orderedRanking (es : List StatEntry) (hes : Ordered es) : Ranking ℕ where
  rank := beaten es
  Ok := fun e => e ∈ es
  choosesMax := fun key =>
    { choice := newerOf_choice
      rank_pick := by
        rintro a b ⟨ha, hak⟩ ⟨hb, hbk⟩
        have hkey : entryKey a = entryKey b := hak.trans hbk.symm
        by_cases hab : a = b
        · subst hab
          rcases newerOf_choice a a with h | h <;> rw [h, max_self]
        · rcases hes.1 a ha b hb hkey hab with h | h
          · rw [h.1, max_eq_left (beaten_lt hes ha hb hkey h).le]
          · rw [h.2.1, max_eq_right (beaten_lt hes hb ha hkey.symm h).le] }

/-- Under it, entries of one key and one rank are one entry. -/
theorem eq_of_beaten_eq {es : List StatEntry} (hes : Ordered es) {c : Codec} {key : GoString}
    {o o' : Option StatEntry} (ho : ∀ e ∈ o, e ∈ Storable (orderedRanking es hes) c key)
    (ho' : ∀ e ∈ o', e ∈ Storable (orderedRanking es hes) c key)
    (h : optRank (orderedRanking es hes).rank o = optRank (orderedRanking es hes).rank o') :
    o = o' := by
  rw [optRank_eq_iff] at h
  cases o with
  | none => cases o' with
    | none => rfl
    | some e' => cases h
  | some e => cases o' with
    | none => cases h
    | some e' =>
      obtain ⟨hmem, hkey, -⟩ := ho e rfl
      obtain ⟨hmem', hkey', -⟩ := ho' e' rfl
      -- of two different ones, the winner would beat more
      have hrank : beaten es e = beaten es e' := Option.some.inj h
      by_contra hne
      have hne' : e ≠ e' := fun heq => hne (heq ▸ rfl)
      rcases hes.1 e hmem e' hmem' (hkey.trans hkey'.symm) hne' with hb | hb
      · exact absurd hrank (beaten_lt hes hmem hmem' (hkey.trans hkey'.symm) hb).ne'
      · exact absurd hrank (beaten_lt hes hmem' hmem (hkey'.trans hkey.symm) hb).ne

/-! ## The result -/

/-- **Background work is not seen**: a read and a scan find the same entry
for every key, and after any background work both still find it. -/
def Invisible (env : Env) (maxMemBytes : ℤ) (ws : List Work) (bs : List Background) : Prop :=
  ∀ key,
    (run env maxMemBytes ws).scan env key = (run env maxMemBytes ws).read env key ∧
    (run env maxMemBytes (ws ++ bs.map .background)).read env key
      = (run env maxMemBytes ws).read env key ∧
    (run env maxMemBytes (ws ++ bs.map .background)).scan env key
      = (run env maxMemBytes ws).read env key

/-- **Background work is not seen**, in every run whose conflicts are
decided and whose log is never read back with a record behind a torn
one. -/
theorem background_invisible (env : Env) (maxMemBytes : ℤ) (ws : List Work) (bs : List Background)
    (hordered : Ordered (givenEntries ws))
    (hback : ReadsBack env maxMemBytes (.init env maxMemBytes) (ws ++ bs.map .background)) :
    Invisible env maxMemBytes ws bs := by
  obtain ⟨hws, hbs⟩ := readsBack_append hback
  set R := orderedRanking (givenEntries ws) hordered
  have hg : (run env maxMemBytes ws).Good R env := good_init.run (fun e he => he) hws
  have happend : run env maxMemBytes (ws ++ bs.map .background)
      = (bs.map .background).foldl (History.work env maxMemBytes) (run env maxMemBytes ws) :=
    List.foldl_append
  obtain ⟨hg', htop⟩ := hg.run_background hbs
  rw [← happend] at hg' htop
  intro key
  obtain ⟨hread, hreadRank⟩ := hg.read key
  obtain ⟨hscan, hscanRank⟩ := hg.inv.scan key
  obtain ⟨hread', hreadRank'⟩ := hg'.read key
  obtain ⟨hscan', hscanRank'⟩ := hg'.inv.scan key
  rw [htop] at hreadRank' hscanRank'
  exact ⟨eq_of_beaten_eq hordered hscan hread (hscanRank.trans hreadRank.symm),
    eq_of_beaten_eq hordered hread' hread (hreadRank'.trans hreadRank.symm),
    eq_of_beaten_eq hordered hscan' hread (hscanRank'.trans hreadRank.symm)⟩

/-- Two versions of one key, encoded. -/
def versionsEnv : Env where
  codec := .ofTable
    [(sampleEntry 97 1, [10, 1, 97, 82, 7, 10, 5, 10, 1, 110, 16, 1]),
      (sampleEntry 97 2, [10, 1, 97, 82, 7, 10, 5, 10, 1, 110, 16, 2])] (by decide)
  nano := fun n => n
  nano_strictMono := strictMono_id

/-- The older version is written last, and the tree closed, opened,
compacted and its cache emptied. -/
theorem background_invisible_sample :
    Invisible versionsEnv 0 [.action (.write (sampleEntry 97 2) .ok), .background (.flush .ok),
      .action (.write (sampleEntry 97 1) .ok)] [.reopen .ok, .compact .ok, .evict] :=
  background_invisible versionsEnv 0 _ _ (by decide) (by decide)

/-- **A scan and a read need not agree**: of two entries with equal clocks
and sample sizes, in two tables, a read returns the one flushed last and a
scan the one flushed first. -/
theorem not_invisible : ¬ ∀ (env : Env) (maxMemBytes : ℤ) (ws : List Work) (bs : List Background),
    Invisible env maxMemBytes ws bs := by
  intro h
  have hkey := (h tiedEnv 0
    [.action (.write (tied 4602678819172646912) .ok), .background (.flush .ok),
      .action (.write (tied 4598175219545276416) .ok), .background (.flush .ok)] []
    [97, 58, 58, 58]).1
  revert hkey
  decide

end Metastore

end TftAnalytics

import TftAnalytics.Metastore.Helpers.ReadCall
import TftAnalytics.Metastore.WriteQuorum
/-!
# Metastore — whether a read meets the writes before it

A write that succeeded is on two of three nodes, and a read that has two
answers has one from them. But `Read` never checks that it has: where no
replica answers in time it returns what its own tree has, or nothing,
and no error.
-/

namespace TftAnalytics

namespace Metastore

open Hasher Peers

variable {env : Env} {maxMemBytes : ℤ} {c : Cluster} {n : GoString} {nd : Node}

/-- An answer of a replica to the `k`-th read is there to be received. -/
def Cluster.Answered (c : Cluster) (k : ℕ) : Prop :=
  ∃ r, c.reads[k]? = some r ∧ (c.coordinator r.self r.boot).isSome ∧
    ∃ x a, r.asked = some (x, some a)

/-- What a read of a node's tree finds. -/
def Cluster.read (env : Env) (c : Cluster) (n : GoString) (key : GoString) : Option StatEntry :=
  (c.lsm n).bind fun h => h.read env key

/-- **A read behind a write**: three nodes' rings all contain the three, the
call `w` of `Write` has returned success before a read for its key starts
on a live node, and that read has returned `best`, and no error, since it
never does. -/
structure ReadAfterWrite (env : Env) (maxMemBytes : ℤ)
    (config : AList fun _ : GoString => List GoString) (pre post : List Event) (n : GoString)
    (w : WriteCall) (best : Option StatEntry) : Prop where
  three : config.keys.length = 3
  rings : ∀ evs, evs <+: pre ++ .startRead n w.entry.request :: post →
    (Cluster.after env maxMemBytes config evs).RingsFull config.keys.toFinset
  written : w ∈ (Cluster.after env maxMemBytes config pre).writes
  success : w.outcome = some true
  live : ((Cluster.after env maxMemBytes config pre).running n).isSome
  returned : ∃ r, (Cluster.after env maxMemBytes config
      (pre ++ .startRead n w.entry.request :: post)).reads[(Cluster.after env maxMemBytes config
        pre).reads.length]? = some r ∧ r.outcome = some best

/-- **The read reaches another node, or need not**: a replica's answer comes
in before the read has given up on it, or the node's own tree has an entry
that the one written does not beat when the read starts. -/
def Reaches (env : Env) (maxMemBytes : ℤ) (config : AList fun _ : GoString => List GoString)
    (pre post : List Event) (n : GoString) (w : WriteCall) : Prop :=
  (∃ x, (Cluster.after env maxMemBytes config pre).read env n (entryKey w.entry) = some x ∧
    ¬ Beats w.entry x) ∨
  ∃ mid, mid ++ [.readReport (Cluster.after env maxMemBytes config pre).reads.length true]
      <+: post ∧
    (Cluster.after env maxMemBytes config (pre ++ .startRead n w.entry.request :: mid)).Answered
      (Cluster.after env maxMemBytes config pre).reads.length

/-- What does not lose to an entry ranks as high. -/
theorem rank_le_of_not_beats {e x : StatEntry} (he : Clocked e) (hx : Clocked x)
    (h : ¬ Beats e x) : clockRank e ≤ clockRank x := by
  by_contra hlt
  rw [not_le] at hlt
  refine h ⟨?_, ?_, ?_⟩
  · rw [newerOf_eq he hx, if_neg hlt.asymm]
  · rw [newerOf_eq hx he, if_pos hlt]
  · rintro rfl
    exact lt_irrefl _ hlt

/-- The write's two nodes. -/
theorem ReadAfterWrite.holders {config : AList fun _ : GoString => List GoString}
    {pre post : List Event} {w : WriteCall} {best : Option StatEntry}
    (h : ReadAfterWrite env maxMemBytes config pre post n w best) :
    ∃ s ⊆ config.keys.toFinset, 2 ≤ s.card ∧
      ∀ x ∈ s, (Cluster.after env maxMemBytes config pre).Applied x w.entry := by
  have hU : config.keys.toFinset.card = 3 := by
    rw [List.toFinset_card_of_nodup config.keys_nodup, h.three]
  have hsound := (Cluster.init env maxMemBytes config).sound_run env maxMemBytes
    (by simp [Cluster.init]) pre w h.written
  obtain ⟨s, hcard, hs⟩ := hsound.success h.success
  obtain ⟨start, hstart, nd, hnd, howners⟩ := Cluster.owners_run h.written
  have hprefix : start <+: pre ++ .startRead n w.entry.request :: post :=
    ((List.prefix_append _ _).trans hstart).trans (List.prefix_append _ _)
  have hperm := owners_full hU (Cluster.placed_run config start (Cluster.mem_running.mp hnd).1)
    (h.rings start hprefix _ nd hnd) w.entry.entityId
  rw [← howners] at hperm
  have hlen : w.owners.length = 3 := by rw [hperm.length_eq, Finset.length_toList, hU]
  refine ⟨s, fun x hx => ?_, ?_, fun x hx => (hs x hx).2⟩
  · have hx' := (hs x hx).1
    rw [WriteCall.targets, if_neg (by rintro hnil; simp [hnil] at hlen)] at hx'
    exact Finset.mem_toList.mp (hperm.mem_iff.mp hx')
  · rw [hlen] at hcard
    exact hcard

theorem Cluster.reads_startRead (env : Env) (maxMemBytes : ℤ) (hnd : nd ∈ c.running n)
    (req : ReadRequest) : (c.step env maxMemBytes (.startRead n req)).reads[c.reads.length]?
      = some (ReadCall.start n nd.boots req (nd.owners req.entityId)) := by
  have hreads : (c.step env maxMemBytes (.startRead n req)).reads
      = c.reads ++ [ReadCall.start n nd.boots req (nd.owners req.entityId)] := by
    simp [Cluster.step, Cluster.stepReads, Option.mem_def.mp hnd]
  rw [hreads, List.getElem?_concat_length]

/-- The read, as it starts: among the three nodes, its own among them. -/
theorem ReadAfterWrite.tracks {config : AList fun _ : GoString => List GoString}
    {pre post : List Event} {w : WriteCall} {best : Option StatEntry}
    (h : ReadAfterWrite env maxMemBytes config pre post n w best) :
    n ∈ config.keys.toFinset ∧ ∃ r₀, ((Cluster.after env maxMemBytes config pre).step env
        maxMemBytes (.startRead n w.entry.request)).reads[(Cluster.after env maxMemBytes config
          pre).reads.length]? = some r₀ ∧ r₀.self = n ∧ r₀.req = w.entry.request ∧
      ∀ S bound, r₀.Tracks env config.keys.toFinset S bound := by
  have hU : config.keys.toFinset.card = 3 := by
    rw [List.toFinset_card_of_nodup config.keys_nodup, h.three]
  obtain ⟨nd, hnd⟩ := Option.isSome_iff_exists.mp h.live
  have hplaced := Cluster.placed_run config pre (Cluster.mem_running.mp hnd).1
  have hfull := h.rings pre (List.prefix_append _ _) n nd hnd
  have hperm := owners_full hU hplaced hfull w.entry.entityId
  have hnU : n ∈ config.keys.toFinset := by
    have hown := hplaced.rooted.own
    rw [hplaced.self] at hown
    have hmem := hplaced.rooted.wf.owns_mem (hplaced.rooted.wf.owns hown)
    exact hfull.1 ▸ hmem
  refine ⟨hnU, _, Cluster.reads_startRead env maxMemBytes hnd _, rfl, rfl, fun S bound => ?_⟩
  refine ReadCall.tracks_start (hperm.nodup_iff.mpr (Finset.nodup_toList _)) (fun x hx => ?_) ?_
  · exact Finset.mem_toList.mp (hperm.mem_iff.mp hx)
  · exact hperm.mem_iff.mpr (Finset.mem_toList.mpr hnU)

/-- **A read that a replica answered counts two answers.** -/
theorem Cluster.Good.answered_run {r : ReadCall} {S U : Finset GoString}
    {bound : WithBot (ℤ ×ₗ ℤ)} (hgood : c.Good env) {k : ℕ} (hr : c.reads[k]? = some r)
    (htracks : r.Tracks env U S bound) (hholds : c.Holds env S (readKey r.req) bound)
    {mid tail : List Event}
    (hunburied : c.Unburied env maxMemBytes (mid ++ [.readReport k true] ++ tail))
    (hanswered : (c.run env maxMemBytes mid).Answered k) :
    ∃ r', (c.run env maxMemBytes (mid ++ [.readReport k true] ++ tail)).reads[k]? = some r' ∧
      r'.Tracks env U S bound ∧ r'.self = r.self ∧ 2 ≤ r'.responses := by
  obtain ⟨hmid, htail⟩ := Cluster.Unburied.append.mp hunburied
  obtain ⟨hmid, hreport, -⟩ := Cluster.Unburied.append.mp hmid
  obtain ⟨hgood₁, hmono₁⟩ := hgood.run hmid
  obtain ⟨r₁, hr₁, htracks₁, hself₁, hreq₁, -⟩ := hgood.tracks_run hr htracks hholds hmid
  have hholds₁ : (c.run env maxMemBytes mid).Holds env S (readKey r₁.req) bound := by
    rw [hreq₁]
    exact fun x hx => (hholds x hx).trans (hmono₁ x _)
  -- the answer that comes in
  obtain ⟨r₁', hr₁', hcoord, x, a, hasked⟩ := hanswered
  obtain rfl := Option.some.inj (hr₁.symm.trans hr₁')
  obtain ⟨nd, hnd⟩ := Option.isSome_iff_exists.mp hcoord
  have hr₂ : ((c.run env maxMemBytes mid).step env maxMemBytes (.readReport k true)).reads[k]?
      = some (r₁.report true) := by
    simp [Cluster.step, Cluster.stepReads, hr₁, hnd]
  obtain ⟨hgood₂, hmono₂⟩ := hgood₁.step maxMemBytes hreport
  obtain ⟨-, hself₂, hreq₂⟩ := r₁.report_mono true
  have hholds₂ : ((c.run env maxMemBytes mid).step env maxMemBytes (.readReport k true)).Holds env S
      (readKey (r₁.report true).req) bound := by
    rw [hreq₂]
    exact fun x hx => (hholds₁ x hx).trans (hmono₂ x _)
  have hrun : c.run env maxMemBytes (mid ++ [.readReport k true])
      = (c.run env maxMemBytes mid).step env maxMemBytes (.readReport k true) := by
    simp [Cluster.run]
  rw [hrun] at htail
  obtain ⟨r', hr', htracks', hself', -, hresp'⟩ :=
    hgood₂.tracks_run hr₂ (htracks₁.report true) hholds₂ htail
  refine ⟨r', ?_, htracks', ?_, (htracks₁.two_le hasked).trans hresp'⟩
  · rw [Cluster.run, List.foldl_append, ← Cluster.run, ← Cluster.run, hrun]
    exact hr'
  · rw [hself', hself₂, hself₁]

/-- **A read meets the writes before it** where it reaches another node, or
need not, the clocks written are sound, and no stop of a node finds a
record behind a torn one: it has found an entry, and not one that the
entry written beats. -/
theorem read_quorum (env : Env) (maxMemBytes : ℤ)
    (config : AList fun _ : GoString => List GoString) (pre post : List Event) (n : GoString)
    (w : WriteCall) (best : Option StatEntry)
    (h : ReadAfterWrite env maxMemBytes config pre post n w best)
    (hunburied : (Cluster.init env maxMemBytes config).Unburied env maxMemBytes
      (pre ++ .startRead n w.entry.request :: post))
    (hreaches : Reaches env maxMemBytes config pre post n w) :
    ∃ x, best = some x ∧ ¬ Beats w.entry x := by
  obtain ⟨hpre, hread, hpost⟩ := Cluster.Unburied.append.mp hunburied
  obtain ⟨hgood, -⟩ := (Cluster.good_init config).run hpre
  obtain ⟨hgood₁, hmono₁⟩ := hgood.step maxMemBytes hread
  have hU : config.keys.toFinset.card = 3 := by
    rw [List.toFinset_card_of_nodup config.keys_nodup, h.three]
  obtain ⟨hnU, r₀, hr₀, hself₀, hreq₀, htracks₀⟩ := h.tracks
  obtain ⟨s, hsU, hcard, hs⟩ := h.holders
  obtain ⟨r, hr, hbest⟩ := h.returned
  have hrun : Cluster.after env maxMemBytes config (pre ++ .startRead n w.entry.request :: post)
      = ((Cluster.after env maxMemBytes config pre).step env maxMemBytes
        (.startRead n w.entry.request)).run env maxMemBytes post := by
    rw [Cluster.after_append]
    rfl
  rw [hrun] at hr
  have hentry : Clocked w.entry := by
    obtain ⟨x, hx⟩ := Finset.card_pos.mp (by omega : 0 < s.card)
    exact (hgood.le_top (hs x hx)).1
  have hkey : readKey r₀.req = entryKey w.entry := by rw [hreq₀]; rfl
  -- the rank of the entry is in what the read returned
  have hrank : (∀ b ∈ best, Clocked b) ∧ ↑(clockRank w.entry) ≤ optRank clockRank best := by
    rcases hreaches with ⟨x, hx, hbeats⟩ | ⟨mid, ⟨tail, rfl⟩, hanswered⟩
    · -- the node's own tree has it
      have hholds : ((Cluster.after env maxMemBytes config pre).step env maxMemBytes
          (.startRead n w.entry.request)).Holds env {n} (readKey r₀.req)
            ↑(clockRank w.entry) := by
        intro y hy
        obtain rfl := Finset.mem_singleton.mp hy
        refine le_trans ?_ (hmono₁ y _)
        obtain ⟨nd, hnd⟩ := Option.isSome_iff_exists.mp h.live
        obtain ⟨hst, htop⟩ := hgood.find hnd (entryKey w.entry)
        have hlsm : (Cluster.after env maxMemBytes config pre).lsm y = some nd.lsm := by
          rw [Cluster.lsm, Option.mem_def.mp (Cluster.mem_running.mp hnd).1]
          rfl
        rw [Cluster.read, hlsm, Option.bind_some] at hx
        rw [hkey]
        refine le_trans ?_ htop.le
        rw [hx, optRank_some, WithBot.coe_le_coe]
        exact rank_le_of_not_beats hentry (hst x hx).1.2 hbeats
      obtain ⟨r', hr', htracks, hself, -, -⟩ := hgood₁.tracks_run hr₀ (htracks₀ _ _) hholds hpost
      obtain rfl := Option.some.inj (hr.symm.trans hr')
      refine htracks.outcome hbest (Or.inl ?_) (Finset.singleton_subset_iff.mpr hnU)
      rw [hself, hself₀]
      exact Finset.mem_singleton_self n
    · -- a replica has answered
      have hholds : ((Cluster.after env maxMemBytes config pre).step env maxMemBytes
          (.startRead n w.entry.request)).Holds env s (readKey r₀.req) ↑(clockRank w.entry) := by
        intro y hy
        rw [hkey]
        exact (hgood.le_top (hs y hy)).2.trans (hmono₁ y _)
      rw [Cluster.after_append] at hanswered
      obtain ⟨r', hr', htracks, -, hresp⟩ :=
        hgood₁.answered_run hr₀ (htracks₀ _ _) hholds hpost hanswered
      obtain rfl := Option.some.inj (hr.symm.trans hr')
      exact htracks.outcome hbest (Or.inr (by omega)) hsU
  obtain ⟨hclocked, hle⟩ := hrank
  cases best with
  | none => exact absurd hle (by simp)
  | some x =>
    rw [optRank_some, WithBot.coe_le_coe] at hle
    exact ⟨x, rfl, not_beats_of_rank_le hentry (hclocked x rfl) hle⟩

/-! ## Three nodes -/

theorem Cluster.step_startRead (env : Env) (maxMemBytes : ℤ) (req : ReadRequest)
    (hnd : nd ∈ c.running n) :
    c.step env maxMemBytes (.startRead n req) = { c with
      reads := c.reads ++ [ReadCall.start n nd.boots req (nd.owners req.entityId)] } := by
  simp only [Cluster.step, Cluster.stepReads, Option.mem_def.mp hnd, Option.map_some,
    Option.toList_some]
  rfl

/-- The third node reads itself, and hears from nobody. -/
def loneRead : List Event :=
  [.readLook 0, .readLook 0, .readReport 0 false, .readLook 0, .readReport 0 false]

/-- The third node reads itself, and a replica answers. -/
def heardRead : List Event := [.readLook 0, .readLook 0, .readServe 0] ++ [.readReport 0 true]

/-- The three with the write done and the read called, its owners in the
order `l'`. -/
def trioReading (l l' : List GoString) : Cluster :=
  { (trioWriting l).run sampleEnv 0 pairWrite with
    reads := [ReadCall.start [99] 0 (sampleEntry 97 1).request l'] }

/-- **The read is called behind the write**: whatever the order in which the
rings list the owners. -/
theorem trio_start : ∃ l ∈ Gossip.trio.keys.permutations', ∃ l' ∈ Gossip.trio.keys.permutations',
    (Cluster.init sampleEnv 0 Gossip.trio).step sampleEnv 0
        (.startWrite [97] (sampleEntry 97 1)) = trioWriting l ∧
      ((trioWriting l).run sampleEnv 0 pairWrite).step sampleEnv 0
        (.startRead [99] (sampleEntry 97 1).request) = trioReading l l' := by
  obtain ⟨l, hl, hwrite, hafter⟩ := trio_pairEvents
  have hready : ∀ l ∈ Gossip.trio.keys.permutations',
      (((trioWriting l).run sampleEnv 0 pairWrite).running [99]).map (·.boots) = some 0 ∧
      ((trioWriting l).run sampleEnv 0 pairWrite).reads.length = 0 := by decide
  obtain ⟨hup, hreads⟩ := hready _ hl
  obtain ⟨nd', hnd', hboots'⟩ := Option.map_eq_some_iff.mp hup
  have hcalls : ∀ ev ∈ pairEvents, ev.IsCall := by decide
  refine ⟨l, hl, _, trio_owners hcalls (hafter ▸ hnd') [97], hwrite, ?_⟩
  have hstart := Cluster.step_startRead sampleEnv 0 (sampleEntry 97 1).request hnd'
  rw [hboots', List.length_eq_zero_iff.mp hreads] at hstart
  exact hstart

/-- What the calls lead to from there. -/
theorem trio_run : ∃ l ∈ Gossip.trio.keys.permutations', ∃ l' ∈ Gossip.trio.keys.permutations',
    Cluster.after sampleEnv 0 Gossip.trio pairEvents = (trioWriting l).run sampleEnv 0 pairWrite ∧
    (∀ post, Cluster.after sampleEnv 0 Gossip.trio
      (pairEvents ++ .startRead [99] (sampleEntry 97 1).request :: post)
        = (trioReading l l').run sampleEnv 0 post) ∧
    ∀ post, (trioReading l l').Unburied sampleEnv 0 post →
      (Cluster.init sampleEnv 0 Gossip.trio).Unburied sampleEnv 0
        (pairEvents ++ .startRead [99] (sampleEntry 97 1).request :: post) := by
  obtain ⟨l, hl, l', hl', hwrite, hread⟩ := trio_start
  have hafter : Cluster.after sampleEnv 0 Gossip.trio pairEvents
      = (trioWriting l).run sampleEnv 0 pairWrite := by
    rw [Cluster.after, pairEvents, Cluster.run_cons, hwrite]
  refine ⟨l, hl, l', hl', hafter, fun post => ?_, fun post hpost => ?_⟩
  · rw [Cluster.after_append, hafter, Cluster.run_cons, hread]
  · have hspared : ∀ l ∈ Gossip.trio.keys.permutations',
        (trioWriting l).Unburied sampleEnv 0 pairWrite := by decide
    refine Cluster.Unburied.append.mpr ⟨?_, ?_⟩
    · rw [pairEvents, Cluster.Unburied, hwrite]
      exact ⟨fun x hx => absurd hx (Option.not_mem_none x), hspared l hl⟩
    · unfold Cluster.after at hafter
      rw [hafter, Cluster.Unburied, hread]
      exact ⟨fun x hx => absurd hx (Option.not_mem_none x), hpost⟩

/-- The write has succeeded, and the read behind it starts. -/
theorem trio_readAfterWrite (post : List Event) (hpost : ∀ ev ∈ post, ev.IsCall)
    (best : Option StatEntry) (hbest : ∀ l ∈ Gossip.trio.keys.permutations',
      ∀ l' ∈ Gossip.trio.keys.permutations',
        ((trioReading l l').run sampleEnv 0 post).reads.map (·.outcome) = [some best]) :
    ∃ w, w.entry = sampleEntry 97 1 ∧
      ReadAfterWrite sampleEnv 0 Gossip.trio pairEvents post [99] w best := by
  obtain ⟨l, hl, l', hl', hwrite, hread, -⟩ := trio_run
  have hdone : ∀ l ∈ Gossip.trio.keys.permutations',
      ((trioWriting l).run sampleEnv 0 pairWrite).writes.map (fun w => (w.entry, w.outcome))
        = [(sampleEntry 97 1, some true)] ∧
      (((trioWriting l).run sampleEnv 0 pairWrite).running [99]).isSome ∧
      ((trioWriting l).run sampleEnv 0 pairWrite).reads.length = 0 := by decide
  obtain ⟨hwrites, hlive, hreads⟩ := hdone l hl
  obtain ⟨w, hw, hfacts⟩ := List.map_eq_singleton_iff.mp hwrites
  obtain ⟨hentry, hok⟩ := Prod.mk.inj hfacts
  obtain ⟨r, hr, hout⟩ := List.map_eq_singleton_iff.mp (hbest l hl l' hl')
  refine ⟨w, hentry, by decide, fun evs hevs => trio_ringsFull fun ev hev => ?_, ?_, hok, ?_, r, ?_,
    hout⟩
  · have hcalls : ∀ ev ∈ pairEvents, ev.IsCall := by decide
    rcases List.mem_append.mp (hevs.subset hev) with hev | hev
    · exact hcalls ev hev
    · rcases List.mem_cons.mp hev with rfl | hev
      · trivial
      · exact hpost ev hev
  · rw [hwrite, hw]
    exact List.mem_singleton_self w
  · rw [hwrite]
    exact hlive
  · rw [hentry, hread, hwrite, hreads, hr]
    rfl

/-- **A read need not meet the writes before it**: the entry is on two
nodes, and the third, which hears from neither, returns that there is
none. -/
theorem not_read_quorum : ¬ ∀ (env : Env) (maxMemBytes : ℤ)
    (config : AList fun _ : GoString => List GoString) (pre post : List Event) (n : GoString)
    (w : WriteCall) (best : Option StatEntry),
    ReadAfterWrite env maxMemBytes config pre post n w best →
      ∃ x, best = some x ∧ ¬ Beats w.entry x := by
  intro h
  obtain ⟨w, -, hread⟩ := trio_readAfterWrite loneRead (by decide) none (by decide)
  obtain ⟨x, hx, -⟩ := h _ _ _ _ _ _ _ _ hread
  cases hx

/-- With an answer it does. -/
theorem read_quorum_heard : ∃ w : WriteCall,
    ReadAfterWrite sampleEnv 0 Gossip.trio pairEvents heardRead [99] w (some (sampleEntry 97 1)) ∧
      ∃ x, some (sampleEntry 97 1) = some x ∧ ¬ Beats w.entry x := by
  obtain ⟨w, hentry, hread⟩ :=
    trio_readAfterWrite heardRead (by decide) (some (sampleEntry 97 1)) (by decide)
  obtain ⟨l, hl, l', hl', hwrite, hrun, hunburied⟩ := trio_run
  have hspared : ∀ l ∈ Gossip.trio.keys.permutations', ∀ l' ∈ Gossip.trio.keys.permutations',
      (trioReading l l').Unburied sampleEnv 0 heardRead := by decide
  have hreads : ∀ l ∈ Gossip.trio.keys.permutations',
      ((trioWriting l).run sampleEnv 0 pairWrite).reads.length = 0 := by decide
  have hanswered : ∀ l ∈ Gossip.trio.keys.permutations', ∀ l' ∈ Gossip.trio.keys.permutations',
      (((trioReading l l').run sampleEnv 0 (heardRead.take 3)).reads[0]?.bind fun r =>
        (((trioReading l l').run sampleEnv 0 (heardRead.take 3)).coordinator r.self r.boot).bind
          fun _ => r.asked.bind fun a => a.2.map fun _ => ()) = some () := by decide
  refine ⟨w, hread, read_quorum _ _ _ _ _ _ _ _ hread ?_ (Or.inr ⟨heardRead.take 3, ?_, ?_⟩)⟩
  · rw [hentry]
    exact hunburied _ (hspared l hl l' hl')
  · rw [hwrite, hreads l hl]
    exact ⟨[], rfl⟩
  · rw [hentry, hrun, hwrite, hreads l hl]
    obtain ⟨r, hr, h⟩ := Option.bind_eq_some_iff.mp (hanswered l hl l' hl')
    obtain ⟨nd, hnd, h⟩ := Option.bind_eq_some_iff.mp h
    obtain ⟨⟨x, a⟩, hasked, h⟩ := Option.bind_eq_some_iff.mp h
    obtain ⟨a, rfl, -⟩ := Option.map_eq_some_iff.mp h
    exact ⟨r, hr, by rw [hnd]; rfl, x, a, hasked⟩

end Metastore

end TftAnalytics

import TftAnalytics.Api.Model.TtlCache
import TftAnalytics.Common.Observed
import Mathlib.Algebra.Order.Group.Int
/-!
# API — how old a cached value can be

A value that `get_or_compute` returns was computed for its key, by a call
that had read the clock less than `ttl` before: the time in the cache is
that of the call, not of the end of its computation. What one event can do
is said once (`Moves`), and what holds of a run rests on that.
-/

namespace TftAnalytics

namespace Api

variable {ι κ T ν : Type}

namespace Cached

/-- A value that was computed for a key, by a call at a time. -/
def Delivered (log : List (CacheEntry ι κ T ν)) (key : κ) (t : T) (value : ν) : Prop :=
  ∃ i, .computed i key t value ∈ log

theorem Delivered.later {log later : List (CacheEntry ι κ T ν)} {key : κ} {t : T} {value : ν}
    (h : Delivered log key t value) : Delivered (log ++ later) key t value := by
  obtain ⟨i, hi⟩ := h
  exact ⟨i, List.mem_append_left _ hi⟩

variable [DecidableEq ι]

@[simp] theorem goto_cache (s : Cached ι κ T ν) (i : ι) (pc : CachePc κ T ν) :
    (s.goto i pc).cache = s.cache := rfl

theorem goto_pc (s : Cached ι κ T ν) (i j : ι) (pc : CachePc κ T ν) :
    (s.goto i pc).pc j = if j = i then pc else s.pc j := Function.update_apply ..

section

variable {log : List (CacheEntry ι κ T ν)} {s : Cached ι κ T ν}

/-- Before a thread computes, its call is in the log. -/
def Begun (log : List (CacheEntry ι κ T ν)) (s : Cached ι κ T ν) : Prop :=
  ∀ i key t, s.pc i = .called key t ∨ s.pc i = .missed key t → .called i key t ∈ log

theorem Begun.goto (h : Begun log s) (i : ι) {pc : CachePc κ T ν}
    (hpc : ∀ key t, pc = .called key t ∨ pc = .missed key t → .called i key t ∈ log) :
    Begun log (s.goto i pc) := by
  intro j key t hj
  rw [goto_pc] at hj
  split_ifs at hj with hji
  · exact hji ▸ hpc key t hj
  · exact h j key t hj

omit [DecidableEq ι] in
theorem Begun.later (h : Begun log s) (later : List (CacheEntry ι κ T ν)) :
    Begun (log ++ later) s :=
  fun i key t hi => List.mem_append_left _ (h i key t hi)

end

variable [DecidableEq κ]

/-- A store is seen under its key. -/
theorem get_put (c : TTLCache κ T ν) (key k : κ) (now : T) (value : ν) :
    (c.put key now value).get k = if k = key then some (now, value) else c.get k :=
  lookup_upsert ..

section

variable {key : κ} {log : List (CacheEntry ι κ T ν)} {s : Cached ι κ T ν}

/-- **What the threads know of a key was computed for it**, by a call at the
time that goes with it. -/
structure Backed (key : κ) (log : List (CacheEntry ι κ T ν)) (s : Cached ι κ T ν) : Prop where
  stored : ∀ t value, s.cache.get key = some (t, value) → Delivered log key t value
  held : ∀ i t value, s.pc i = .computed key t value → Delivered log key t value

/-- A thread that goes on without a value. -/
theorem Backed.goto (h : Backed key log s) (i : ι) {pc : CachePc κ T ν}
    (hpc : ∀ t value, pc ≠ .computed key t value) : Backed key log (s.goto i pc) := by
  refine ⟨h.stored, fun j t value hj => ?_⟩
  rw [goto_pc] at hj
  split_ifs at hj
  · exact absurd hj (hpc t value)
  · exact h.held j t value hj

omit [DecidableEq ι] in
theorem Backed.later (h : Backed key log s) (later : List (CacheEntry ι κ T ν)) :
    Backed key (log ++ later) s :=
  ⟨fun t value hs => (h.stored t value hs).later, fun i t value hi => (h.held i t value hi).later⟩

end

variable [AddGroup T] [LinearOrder T]

/-- A hit is younger than `ttl`. -/
theorem get_of_hit {c : TTLCache κ T ν} {key : κ} {now : T} {value : ν}
    (h : c.hit key now = some value) : ∃ t, c.get key = some (t, value) ∧ now - t < c.ttl := by
  unfold TTLCache.hit at h
  obtain ⟨⟨t, v⟩, hget, hfresh⟩ := Option.bind_eq_some_iff.mp h
  split_ifs at hfresh with hlt
  obtain rfl := Option.some.inj hfresh
  exact ⟨t, hget, hlt⟩

/-! ## What one event does -/

/-- **What one event can do**, and what is seen of it. -/
inductive Moves (s : Cached ι κ T ν) : Cached ι κ T ν → Option (CacheEntry ι κ T ν) → Prop
  | idle : Moves s s none
  | call (i : ι) (key : κ) (now : T) (hpc : s.pc i = .idle) :
      Moves s (s.goto i (.called key now)) (some (.called i key now))
  | hit (i : ι) (key : κ) (now : T) (value : ν) (hpc : s.pc i = .called key now)
      (hhit : s.cache.hit key now = some value) :
      Moves s (s.goto i .idle) (some (.returned i key now value))
  | miss (i : ι) (key : κ) (now : T) (hpc : s.pc i = .called key now)
      (hmiss : s.cache.hit key now = none) : Moves s (s.goto i (.missed key now)) none
  | computed (i : ι) (key : κ) (now : T) (value : ν) (hpc : s.pc i = .missed key now) :
      Moves s (s.goto i (.computed key now value)) (some (.computed i key now value))
  | raised (i : ι) (key : κ) (now : T) (hpc : s.pc i = .missed key now) :
      Moves s (s.goto i .idle) (some (.raised i key now))
  | store (i : ι) (key : κ) (now : T) (value : ν) (hpc : s.pc i = .computed key now value) :
      Moves s { s.goto i .idle with cache := s.cache.put key now value }
        (some (.returned i key now value))
  | invalidate : Moves s { s with cache := s.cache.invalidate } (some .invalidated)

theorem moves_step (s : Cached ι κ T ν) (ev : CacheEvent ι κ T ν) :
    Moves s (s.step ev).1 (s.step ev).2 := by
  cases ev with
  | call i key now =>
    rcases hpc : s.pc i with _ | _ | _ | _ <;> simp only [step, hpc]
    · exact .call i key now hpc
    all_goals exact .idle
  | look i =>
    rcases hpc : s.pc i with _ | ⟨key, now⟩ | _ | _ <;> simp only [step, hpc]
    · exact .idle
    · rcases hhit : s.cache.hit key now with _ | value
      · exact .miss i key now hpc hhit
      · exact .hit i key now value hpc hhit
    all_goals exact .idle
  | computed i result =>
    rcases hpc : s.pc i with _ | _ | ⟨key, now⟩ | _ <;> simp only [step, hpc]
    · exact .idle
    · exact .idle
    · rcases result with _ | value
      · exact .raised i key now hpc
      · exact .computed i key now value hpc
    · exact .idle
  | store i =>
    rcases hpc : s.pc i with _ | _ | _ | ⟨key, now, value⟩ <;> simp only [step, hpc]
    · exact .idle
    · exact .idle
    · exact .idle
    · exact .store i key now value hpc
  | invalidate => exact .invalidate

/-! ## Where a value comes from -/

variable {key : κ} {log : List (CacheEntry ι κ T ν)} {s s' : Cached ι κ T ν}
variable {e : Option (CacheEntry ι κ T ν)}

theorem Backed.move (h : Backed key log s) (hmove : Moves s s' e) :
    Backed key (log ++ e.toList) s' := by
  cases hmove with
  | idle => exact h.later _
  | call i k now _ => exact (h.goto i fun _ _ => by simp).later _
  | hit i k now value _ _ => exact (h.goto i fun _ _ => by simp).later _
  | miss i k now _ _ => exact (h.goto i fun _ _ => by simp).later _
  | raised i k now _ => exact (h.goto i fun _ _ => by simp).later _
  | computed i k now value _ =>
    refine ⟨(h.later _).stored, fun j t v hj => ?_⟩
    rw [goto_pc] at hj
    split_ifs at hj
    · -- the value that is handed over is the one in the log
      injection hj with hkey hnow hvalue
      subst hkey hnow hvalue
      exact ⟨i, by simp⟩
    · exact (h.held j t v hj).later
  | store i k now value hpc =>
    refine ⟨fun t v hget => ?_, ((h.goto i fun _ _ => by simp).later _).held⟩
    replace hget : (s.cache.put k now value).get key = some (t, v) := hget
    rw [get_put] at hget
    split_ifs at hget with hkey
    · subst hkey
      obtain ⟨rfl, rfl⟩ := Prod.mk.inj (Option.some.inj hget)
      exact (h.held i _ _ hpc).later
    · exact (h.stored t v hget).later
  | invalidate => exact ⟨fun t v hget => (by cases hget), (h.later _).held⟩

/-- `ttl` never changes. -/
theorem Moves.ttl (h : Moves s s' e) : s'.cache.ttl = s.cache.ttl := by
  cases h <;> rfl

/-- Only a call that missed computes. -/
theorem Moves.missed {i : ι} {t : T} {value : ν}
    (h : Moves s s' (some (.computed i key t value))) : s.pc i = .missed key t := by
  cases h with
  | computed _ _ _ _ hpc => exact hpc

/-- What is returned is in the cache and young enough, or the thread has
just computed it. -/
theorem Backed.returned (h : Backed key log s) {i : ι} {now : T} {value : ν}
    (hmove : Moves s s' (some (.returned i key now value))) (hpos : 0 < s.cache.ttl) :
    ∃ t, Delivered log key t value ∧ now - t < s.cache.ttl := by
  cases hmove with
  | hit _ _ _ _ _ hhit =>
    obtain ⟨t, hget, hlt⟩ := get_of_hit hhit
    exact ⟨t, h.stored t value hget, hlt⟩
  | store _ _ _ _ hpc => exact ⟨now, h.held i now value hpc, by rwa [sub_self]⟩

/-- **What is returned in a run** that starts where the key is backed. -/
theorem Backed.trace (h : Backed key log s) (hpos : 0 < s.cache.ttl)
    {evs : List (CacheEvent ι κ T ν)} {pre post : List (CacheEntry ι κ T ν)} {i : ι} {now : T}
    {value : ν} (htrace : s.trace evs = pre ++ .returned i key now value :: post) :
    ∃ t, Delivered (log ++ pre) key t value ∧ now - t < s.cache.ttl := by
  let P : List (CacheEntry ι κ T ν) → Cached ι κ T ν → Prop := fun log s' =>
    Backed key log s' ∧ s'.cache.ttl = s.cache.ttl
  let Q : List (CacheEntry ι κ T ν) → CacheEntry ι κ T ν → Prop := fun log c =>
    ∀ i now value, c = .returned i key now value →
      ∃ t, Delivered log key t value ∧ now - t < s.cache.ttl
  have hstep : ∀ ev ∈ evs, ∀ log s', P log s' →
      P (machine.logged log s' ev) (machine.next s' ev) :=
    fun ev _ log s' hP => ⟨hP.1.move (moves_step s' ev), (moves_step s' ev).ttl.trans hP.2⟩
  have hreport : ∀ ev ∈ evs, ∀ log s' c, P log s' → machine.report s' ev = some c → Q log c := by
    rintro ev - log s' c ⟨hback, httl⟩ hc i now value rfl
    have hmove := moves_step s' ev
    rw [show (s'.step ev).2 = _ from hc] at hmove
    obtain ⟨t, hfrom, hlt⟩ := hback.returned hmove (httl ▸ hpos)
    exact ⟨t, hfrom, httl ▸ hlt⟩
  exact Machine.report_of_run hstep hreport (P := P) (Q := Q) ⟨h, rfl⟩ htrace i now value rfl

/-! ## When it was computed -/

theorem Begun.move (h : Begun log s) (hmove : Moves s s' e) : Begun (log ++ e.toList) s' := by
  have hidle : ∀ i, Begun log (s.goto i .idle) := fun i =>
    h.goto i fun _ _ hpc => by rcases hpc with hpc | hpc <;> cases hpc
  cases hmove with
  | idle => exact h.later _
  | call i key now _ =>
    refine (h.later _).goto i fun k t hpc => ?_
    rcases hpc with hpc | hpc
    · injection hpc with hk ht
      simp [hk, ht]
    · cases hpc
  | hit i _ _ _ _ _ => exact (hidle i).later _
  | miss i key now hpc _ =>
    refine (h.later _).goto i fun k t hk => ?_
    rcases hk with hk | hk
    · cases hk
    · injection hk with hkey ht
      subst hkey ht
      exact List.mem_append_left _ (h i _ _ (.inl hpc))
  | computed i _ _ _ _ =>
    exact (h.goto i fun _ _ hpc => by rcases hpc with hpc | hpc <;> cases hpc).later _
  | raised i _ _ _ => exact (hidle i).later _
  | store i _ _ _ _ => exact (hidle i).later _
  | invalidate => exact h.later _

/-- **A value is computed after the call has read the clock.** -/
theorem called_before_computed (ttl : T) {evs : List (CacheEvent ι κ T ν)}
    {pre post : List (CacheEntry ι κ T ν)} {i : ι} {t : T} {value : ν}
    (htrace : (start ttl).trace evs = pre ++ .computed i key t value :: post) :
    .called i key t ∈ pre := by
  let Q : List (CacheEntry ι κ T ν) → CacheEntry ι κ T ν → Prop := fun log c =>
    ∀ i key t value, c = .computed i key t value → .called i key t ∈ log
  have hreport : ∀ ev ∈ evs, ∀ log s c, Begun log s → machine.report s ev = some c →
      Q log c := by
    rintro ev - log s c h hc i key t value rfl
    have hmove := moves_step s ev
    rw [show (s.step ev).2 = _ from hc] at hmove
    exact h i key t (.inr hmove.missed)
  have hstart : Begun [] (start ttl : Cached ι κ T ν) := by
    rintro i key t (hpc | hpc) <;> cases hpc
  exact Machine.report_of_run (P := Begun) (fun ev _ _ s h => h.move (moves_step s ev)) hreport
    hstart htrace i key t value rfl

/-- **Cached values have an age.** In a run of any threads on a cache with
`0 < ttl`, a value that `get_or_compute` returns for a key, to a call that
has read the clock at `now`, was computed for that key after a call had
read the clock at a time less than `ttl` before `now`. And where no thread
holds a value for the key that it has not stored, what is returned after
an `invalidate` was computed after it. -/
theorem cached_values_fresh (ttl : T) (hpos : 0 < ttl) (evs : List (CacheEvent ι κ T ν)) :
    (∀ pre i key now value post,
      (start ttl).trace evs = pre ++ .returned i key now value :: post →
      ∃ t j before after, pre = before ++ .computed j key t value :: after ∧
        .called j key t ∈ before ∧ now - t < ttl) ∧
    ∀ key, (∀ i t value, ((start ttl).run evs).pc i ≠ .computed key t value) →
      ∀ later pre i now value post,
        (((start ttl).run evs).step .invalidate).1.trace later
          = pre ++ .returned i key now value :: post →
        ∃ t, Delivered pre key t value ∧ now - t < ttl := by
  constructor
  · intro pre i key now value post htrace
    have hstart : Backed key [] (start ttl : Cached ι κ T ν) :=
      ⟨fun _ _ hget => (by cases hget), fun _ _ _ hpc => (by cases hpc)⟩
    obtain ⟨t, ⟨j, hj⟩, hlt⟩ := hstart.trace hpos htrace
    obtain ⟨before, after, rfl⟩ := List.append_of_mem hj
    rw [List.append_assoc, List.cons_append] at htrace
    exact ⟨t, j, before, after, rfl, called_before_computed ttl htrace, hlt⟩
  · intro key hnone later pre i now value post htrace
    have httl : ((start ttl).run evs).cache.ttl = ttl := by
      let P : List (CacheEntry ι κ T ν) → Cached ι κ T ν → Prop := fun _ s => s.cache.ttl = ttl
      have hstep : ∀ ev ∈ evs, ∀ log s, P log s → P (machine.logged log s ev) (machine.next s ev) :=
        fun ev _ _ s h => (moves_step s ev).ttl.trans h
      have hstart : P [] (start ttl) := rfl
      have hrun : P ([] ++ (start ttl).trace evs) ((start ttl).run evs) :=
        Machine.invariant_run hstep hstart
      exact hrun
    have hempty : Backed key [] (((start ttl).run evs).step .invalidate).1 :=
      ⟨fun _ _ hget => (by cases hget), fun j t v hpc => absurd hpc (hnone j t v)⟩
    have hfrom := hempty.trace (httl.symm ▸ hpos) htrace
    rwa [show (((start ttl).run evs).step .invalidate).1.cache.ttl = ttl from httl] at hfrom

/-- A value that another thread computed 59 seconds before. -/
theorem cached_values_fresh_hit : ∃ (t : ℤ) (j : ℕ) (before after : List (CacheEntry ℕ ℕ ℤ ℕ)),
    [.called 0 7 0, .computed 0 7 0 5, .returned 0 7 0 5, .called 1 7 59]
      = before ++ .computed j 7 t 5 :: after ∧ .called j 7 t ∈ before ∧ 59 - t < 60 :=
  (cached_values_fresh (60 : ℤ) (by decide)
    [.call 0 7 0, .look 0, .computed 0 (some 5), .store 0, .call 1 7 59, .look 1]).1
    [.called 0 7 0, .computed 0 7 0 5, .returned 0 7 0 5, .called 1 7 59] 1 7 59 5 [] rfl

/-! ## How many keys there are -/

/-- The keys in the cache, in the order in which they came. -/
def keys (s : Cached ι κ T ν) : List κ := s.cache.store.map Prod.fst

/-- **The keys in the cache are those that were served.** -/
structure Kept (log : List (CacheEntry ι κ T ν)) (s : Cached ι κ T ν) : Prop where
  nodup : s.keys.Nodup
  served : ∀ key, key ∈ s.keys ↔ ∃ i now value, .returned i key now value ∈ log

omit [DecidableEq ι] in
theorem mem_keys_of_hit {key : κ} {now : T} {value : ν} (h : s.cache.hit key now = some value) :
    key ∈ s.keys := by
  obtain ⟨t, hget, -⟩ := get_of_hit h
  obtain ⟨before, after, hstore, -⟩ := List.lookup_eq_some_iff.mp hget
  rw [keys, hstore]
  simp

omit [DecidableEq ι] [DecidableEq κ] [AddGroup T] [LinearOrder T] in
/-- What is no value leaves what was served. -/
theorem Kept.other (h : Kept log s) (hkeys : s'.keys = s.keys)
    (he : ∀ i key now value, e ≠ some (.returned i key now value)) : Kept (log ++ e.toList) s' := by
  refine ⟨hkeys ▸ h.nodup, fun key => ?_⟩
  rw [hkeys, h.served key]
  refine exists_congr fun i => exists_congr fun now => exists_congr fun value => ?_
  rw [List.mem_append, Option.mem_toList, or_iff_left (he i key now value)]

omit [DecidableEq ι] [DecidableEq κ] [AddGroup T] [LinearOrder T] in
/-- What is served adds its key. -/
theorem Kept.returned (h : Kept log s) {i : ι} {key : κ} {now : T} {value : ν}
    (hnodup : s'.keys.Nodup) (hkeys : ∀ k, k ∈ s'.keys ↔ k ∈ s.keys ∨ k = key) :
    Kept (log ++ (some (CacheEntry.returned i key now value)).toList) s' := by
  refine ⟨hnodup, fun k => ?_⟩
  rw [hkeys, h.served k]
  simp only [Option.toList_some, List.mem_append, List.mem_singleton, CacheEntry.returned.injEq]
  constructor
  · rintro (⟨j, t, v, hmem⟩ | rfl)
    · exact ⟨j, t, v, .inl hmem⟩
    · exact ⟨i, now, value, .inr ⟨rfl, rfl, rfl, rfl⟩⟩
  · rintro ⟨j, t, v, hmem | ⟨-, rfl, -, -⟩⟩
    · exact .inl ⟨j, t, v, hmem⟩
    · exact .inr rfl

/-- Only `invalidate` shows as such. -/
theorem eq_invalidate_of_step {ev : CacheEvent ι κ T ν}
    (h : (s.step ev).2 = some .invalidated) : ev = .invalidate := by
  cases ev with
  | invalidate => rfl
  | _ =>
    simp only [step] at h
    split at h <;> (try split at h) <;> cases h

theorem Kept.move (h : Kept log s) (hmove : Moves s s' e) (hinv : e ≠ some .invalidated) :
    Kept (log ++ e.toList) s' := by
  cases hmove with
  | hit i key now value _ hhit =>
    refine h.returned h.nodup fun k => ⟨.inl, fun hk => ?_⟩
    rcases hk with hk | rfl
    · exact hk
    · exact mem_keys_of_hit hhit
  | store i key now value _ =>
    have hkeys : (s.cache.put key now value).store.map Prod.fst
        = if key ∈ s.keys then s.keys else s.keys ++ [key] := keys_upsert ..
    refine h.returned ?_ fun k => ?_
    · show ((s.cache.put key now value).store.map Prod.fst).Nodup
      rw [hkeys]
      split_ifs with hmem
      · exact h.nodup
      · exact List.nodup_append.mpr ⟨h.nodup, List.nodup_singleton key, by
          rintro a ha b hb rfl
          exact hmem (List.mem_singleton.mp hb ▸ ha)⟩
    · show k ∈ (s.cache.put key now value).store.map Prod.fst ↔ _
      rw [hkeys]
      split_ifs with hmem
      · refine ⟨.inl, fun hk => ?_⟩
        rcases hk with hk | rfl
        · exact hk
        · exact hmem
      · rw [List.mem_append, List.mem_singleton]
  | invalidate => exact absurd rfl hinv
  | _ => exact h.other rfl (by simp)

/-- **The cache never evicts.** In a run in which `invalidate` is not called,
which is nowhere in the service, the keys in the cache are those for which
a value was returned, each once. So whatever the ttl, it grows with every
patch and region that a client makes up. -/
theorem cache_never_evicts (ttl : T) (evs : List (CacheEvent ι κ T ν))
    (hinv : .invalidate ∉ evs) :
    ((start ttl).run evs).keys.Nodup ∧
      ∀ key, key ∈ ((start ttl).run evs).keys ↔
        ∃ i now value, .returned i key now value ∈ (start ttl).trace evs := by
  have hstart : Kept [] (start ttl : Cached ι κ T ν) :=
    ⟨List.nodup_nil, fun key => by simp [keys, start, TTLCache.new]⟩
  have hstep : ∀ ev ∈ evs, ∀ log s, Kept log s →
      Kept (machine.logged log s ev) (machine.next s ev) := by
    intro ev hev log s h
    refine h.move (moves_step s ev) fun hnone => ?_
    exact hinv (eq_invalidate_of_step hnone ▸ hev)
  have hrun := Machine.invariant_run hstep hstart
  exact ⟨hrun.nodup, hrun.served⟩

/-- A value that is long over its ttl, and one whose computation raised. -/
theorem cache_never_evicts_expired :
    (((start (60 : ℤ)).run [.call 0 7 0, .look 0, .computed 0 (some 5), .store 0, .call 1 8 900,
      .look 1, .computed 1 none] : Cached ℕ ℕ ℤ ℕ).keys.Nodup) ∧
      7 ∈ ((start (60 : ℤ)).run [.call 0 7 0, .look 0, .computed 0 (some 5), .store 0,
        .call 1 8 900, .look 1, .computed 1 none] : Cached ℕ ℕ ℤ ℕ).keys := by
  have h := cache_never_evicts (60 : ℤ) ([.call 0 7 0, .look 0, .computed 0 (some 5), .store 0,
    .call 1 8 900, .look 1, .computed 1 none] : List (CacheEvent ℕ ℕ ℤ ℕ)) (by simp)
  exact ⟨h.1, (h.2 7).mpr ⟨0, 0, 5, .tail _ (.tail _ (.head _))⟩⟩

end Cached

end Api

end TftAnalytics

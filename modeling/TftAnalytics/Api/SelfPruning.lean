import TftAnalytics.Api.Helpers.SlidingWindow
import Mathlib.Algebra.Order.Ring.Rat
import Mathlib.Data.Rat.Floor
/-!
# API — what the limiter forgets

The prune deletes deques that are empty, and a deque is shortened only by a
call for its own key. So a key that has had a hit keeps it until it is used
again: the table is free of idle keys exactly as long as no call finds
4096 others with hits of which one is idle.
-/

namespace TftAnalytics

namespace Api

variable {K : Type} [Ring K] [LinearOrder K] [FloorRing K]

/-- The arguments of a call of `allow`, and its time. -/
structure Request (K : Type) where
  key : GoString
  time : K
  limit : ℤ
  window : K

/-- A hit that is not older than the window of a call. -/
def Request.Sees (r : Request K) (t : K) : Prop := r.time - r.window ≤ t

namespace SlidingWindow

/-- A call of `allow`. -/
def serve (s : SlidingWindow K) (r : Request K) : SlidingWindow K × Option (Bool × ℤ) :=
  s.allow r.time r.key r.limit r.window

/-- The limiter after a sequence of calls. -/
def after (reqs : List (Request K)) : SlidingWindow K :=
  reqs.foldl (fun s r => (s.serve r).1) .new

/-- The other keys that have hits, with them. -/
def others (s : SlidingWindow K) (key : GoString) : List (GoString × List K) :=
  s.hits.filter fun p => p.1 ≠ key ∧ p.2.isEmpty = false

end SlidingWindow

/-- **No idle key is left**: in a table of more keys than the bound, each has
a hit in the window. -/
def Pruned (s : SlidingWindow K) (r : Request K) : Prop :=
  pruneAbove < s.hits.length → ∀ p ∈ s.hits, ∃ t ∈ p.2, r.Sees t

variable {s : SlidingWindow K} {r : Request K}

/-- The deque that a call leaves under its key, before it adds its time. -/
def Request.inWindow (r : Request K) (s : SlidingWindow K) : List K :=
  (held [] s.hits r.key).dropWhile (· < r.time - r.window)

/-- The table before the prune. -/
def Request.recorded (r : Request K) (s : SlidingWindow K) : List (GoString × List K) :=
  upsert [] (· ++ [r.time]) r.key (upsert [] (·.dropWhile (· < r.time - r.window)) r.key s.hits)

/-- **An allowed call** records its time and prunes. -/
theorem serve_of_allowed (h : (s.serve r).2 = some (true, 0)) :
    (s.serve r).1.hits = SlidingWindow.prune (r.recorded s) := by
  unfold SlidingWindow.serve SlidingWindow.allow at h ⊢
  dsimp only at h ⊢
  split_ifs at h ⊢ with hfull
  · obtain ⟨first, -, hfirst⟩ := Option.map_eq_some_iff.mp h
    cases hfirst
  · rfl

omit [FloorRing K] in
/-- Before the prune the other keys are as they were, and the key of the
call has its hits. -/
theorem recorded_perm (hs : s.Distinct) : (r.recorded s).Perm
    ((r.key, r.inWindow s ++ [r.time]) :: s.hits.filter fun p => p.1 ≠ r.key) := by
  have hnodup := nodup_keys_upsert [] (·.dropWhile (· < r.time - r.window)) r.key hs
  have hothers : (r.recorded s).filter (fun p => p.1 ≠ r.key)
      = s.hits.filter fun p => p.1 ≠ r.key := by
    unfold Request.recorded
    rw [filter_upsert_ne, filter_upsert_ne]
  have hself : (r.recorded s).filter (fun p => p.1 = r.key)
      = [(r.key, r.inWindow s ++ [r.time])] := by
    unfold Request.recorded Request.inWindow
    rw [filter_upsert_self _ _ hnodup, held_upsert, if_pos rfl]
  have hsplit := List.filter_append_perm (fun p : GoString × List K => p.1 = r.key) (r.recorded s)
  simp only [← decide_not] at hsplit
  rw [hself, hothers] at hsplit
  exact hsplit.symm

omit [FloorRing K] in
/-- **What a prune keeps**: all keys with hits. -/
theorem kept_perm (hs : s.Distinct) : ((r.recorded s).filter fun p => !p.2.isEmpty).Perm
    ((r.key, r.inWindow s ++ [r.time]) :: s.others r.key) := by
  have hfilter := (recorded_perm (r := r) hs).filter fun p => !p.2.isEmpty
  rw [List.filter_cons_of_pos (by simp), List.filter_filter] at hfilter
  refine hfilter.trans (List.Perm.of_eq ?_)
  unfold SlidingWindow.others
  congr 1
  refine List.filter_congr fun p _ => ?_
  rcases hp : p.2.isEmpty <;> simp

omit [FloorRing K] in
/-- A hit in the window is not dropped from its front. -/
theorem exists_inWindow_iff (r : Request K) (s : SlidingWindow K) :
    (∃ t ∈ r.inWindow s ++ [r.time], r.Sees t)
      ↔ r.Sees r.time ∨ ∃ t ∈ held [] s.hits r.key, r.Sees t := by
  unfold Request.inWindow
  constructor
  · rintro ⟨t, ht, hsees⟩
    rcases List.mem_append.mp ht with ht | ht
    · exact Or.inr ⟨t, (List.dropWhile_sublist _).subset ht, hsees⟩
    · exact Or.inl (List.mem_singleton.mp ht ▸ hsees)
  · rintro (hsees | ⟨t, ht, hsees⟩)
    · exact ⟨r.time, by simp, hsees⟩
    · refine ⟨t, List.mem_append_left _ ?_, hsees⟩
      rw [← List.takeWhile_append_dropWhile (p := fun x => decide (x < r.time - r.window))
        (l := held [] s.hits r.key)] at ht
      refine (List.mem_append.mp ht).resolve_left fun ht => ?_
      have hold : t < r.time - r.window := by simpa using List.mem_takeWhile_imp ht
      exact absurd hold (not_lt.mpr hsees)

/-- What a call finds where its prune will leave no idle key. -/
def Request.FindsFresh (r : Request K) (s : SlidingWindow K) : Prop :=
  pruneAbove ≤ (s.others r.key).length →
    (r.Sees r.time ∨ ∃ t ∈ held [] s.hits r.key, r.Sees t) ∧
      ∀ p ∈ s.others r.key, ∃ t ∈ p.2, r.Sees t

/-- **One allowed call.** -/
theorem pruned_serve_iff (hs : s.Distinct) (h : (s.serve r).2 = some (true, 0)) :
    Pruned (s.serve r).1 r ↔ r.FindsFresh s := by
  have hkept := kept_perm (r := r) hs
  unfold Pruned Request.FindsFresh
  rw [serve_of_allowed h, SlidingWindow.prune, ← exists_inWindow_iff]
  split_ifs with hmany
  · rw [hkept.length_eq, List.length_cons, Nat.lt_succ_iff]
    simp only [hkept.mem_iff, List.forall_mem_cons]
  · -- a table within the bound has few other keys
    have hle := List.length_filter_le (fun p => !p.2.isEmpty) (r.recorded s)
    rw [hkept.length_eq, List.length_cons] at hle
    exact ⟨fun _ hmany' => by omega, fun _ hmany' => absurd hmany' hmany⟩

/-! ## Runs -/

theorem distinct_after (reqs : List (Request K)) : (SlidingWindow.after reqs).Distinct := by
  refine List.foldlRecOn (motive := SlidingWindow.Distinct) reqs _ List.nodup_nil fun s h r _ => ?_
  exact (allow_spec h r.time r.key r.limit r.window).1

/-- **The limiter prunes itself** over a sequence of calls. -/
def SelfPruning (reqs : List (Request K)) : Prop :=
  ∀ pre r post, reqs = pre ++ r :: post →
    ((SlidingWindow.after pre).serve r).2 = some (true, 0) →
    Pruned ((SlidingWindow.after pre).serve r).1 r

/-- **When the limiter prunes itself**: whenever a call is allowed and 4096
other keys have hits, each of these keys has one in the window of the call,
and so has the key itself. -/
theorem self_pruning_iff (reqs : List (Request K)) :
    SelfPruning reqs ↔ ∀ pre r post, reqs = pre ++ r :: post →
      ((SlidingWindow.after pre).serve r).2 = some (true, 0) →
      r.FindsFresh (SlidingWindow.after pre) := by
  unfold SelfPruning
  refine forall_congr' fun pre => forall_congr' fun r => forall_congr' fun post =>
    forall_congr' fun _ => forall_congr' fun hallowed => ?_
  exact pruned_serve_iff (distinct_after pre) hallowed

/-! ## Idle keys -/

/-- **A call for a new key** with room adds it, and nothing goes. -/
theorem serve_new {hits : List (GoString × List K)} {r : Request K}
    (hkey : r.key ∉ hits.map Prod.fst) (hlimit : 1 ≤ r.limit)
    (hhits : ∀ p ∈ hits, p.2.isEmpty = false) :
    (SlidingWindow.mk hits).serve r = (⟨hits ++ [(r.key, [r.time])]⟩, some (true, 0)) := by
  have hdeque : held [] (upsert [] (·.dropWhile (· < r.time - r.window)) r.key hits) r.key
      = [] := by
    rw [held_upsert, if_pos rfl, held_of_not_mem [] hkey, List.dropWhile_nil]
  have hprune : SlidingWindow.prune (hits ++ [(r.key, [r.time])])
      = hits ++ [(r.key, [r.time])] := by
    have hall : (hits ++ [(r.key, [r.time])]).filter (fun p => !p.2.isEmpty)
        = hits ++ [(r.key, [r.time])] := by
      refine List.filter_eq_self.mpr fun p hp => ?_
      rcases List.mem_append.mp hp with hp | hp
      · rw [hhits p hp]
        rfl
      · rw [List.mem_singleton.mp hp]
        rfl
    unfold SlidingWindow.prune
    rw [hall, ite_self]
  unfold SlidingWindow.serve SlidingWindow.allow
  dsimp only
  rw [hdeque, if_neg (by rw [List.length_nil]; omega), upsert_of_not_mem [] _ hkey,
    upsert_concat [] _ hkey, List.dropWhile_nil, List.nil_append, hprune]

/-- **New keys only**: each of them stays, with its one hit. -/
theorem after_new (keys : List GoString) (hnodup : keys.Nodup) (time : K) {limit : ℤ}
    (hlimit : 1 ≤ limit) (window : K) :
    SlidingWindow.after (keys.map fun key => ⟨key, time, limit, window⟩)
      = ⟨keys.map fun key => (key, [time])⟩ := by
  induction keys using List.reverseRecOn with
  | nil => rfl
  | append_singleton keys key ih =>
    rw [List.nodup_append] at hnodup
    have hkey : key ∉ (keys.map fun key => (key, [time])).map Prod.fst := by
      intro hmem
      rw [List.map_map] at hmem
      obtain ⟨key', hkey', rfl⟩ := List.mem_map.mp hmem
      exact hnodup.2.2 key' hkey' _ (by simp) rfl
    have hserve := serve_new (r := ⟨key, time, limit, window⟩) hkey hlimit fun p hp => by
      obtain ⟨_, -, rfl⟩ := List.mem_map.mp hp
      rfl
    unfold SlidingWindow.after at ih ⊢
    rw [List.map_append, List.foldl_append, ih hnodup.1, List.map_append]
    exact congrArg Prod.fst hserve

/-- Keys of addresses of their own. -/
def idleKey (n : ℕ) : GoString := ascii "g:" ++ List.replicate n 49

theorem idleKey_injective : Function.Injective idleKey := by
  intro n n' h
  have hlength := congrArg List.length h
  simpa [idleKey] using hlength

/-- A minute after 4097 addresses have called once, another one calls. -/
def idleCalls : List (Request ℚ) :=
  ((List.range 4097).map idleKey).map fun key => ⟨key, 0, 60, 60⟩

def lateCall : Request ℚ := ⟨idleKey 4097, 61, 60, 60⟩

/-- The 4097 idle keys stay. -/
theorem idle_keys_stay :
    ((idleCalls ++ [lateCall]).map (·.time)).Pairwise (· ≤ ·) ∧
      ¬ SelfPruning (idleCalls ++ [lateCall]) := by
  have hnodup : ((List.range 4097).map idleKey).Nodup :=
    List.nodup_range.map idleKey_injective
  have hafter := after_new _ hnodup (0 : ℚ) (by decide : (1 : ℤ) ≤ 60) 60
  have hkey : lateCall.key
      ∉ (((List.range 4097).map idleKey).map fun key => (key, [(0 : ℚ)])).map Prod.fst := by
    intro hmem
    rw [List.map_map] at hmem
    obtain ⟨_, hmem, hlate⟩ := List.mem_map.mp hmem
    obtain ⟨n, hn, rfl⟩ := List.mem_map.mp hmem
    obtain rfl : n = 4097 := idleKey_injective hlate
    exact absurd (List.mem_range.mp hn) (by decide)
  have hserve := serve_new hkey (by decide) fun p hp => by
    obtain ⟨_, -, rfl⟩ := List.mem_map.mp hp
    rfl
  rw [← hafter] at hserve
  refine ⟨?_, fun h => ?_⟩
  · rw [List.map_append, List.pairwise_append]
    refine ⟨?_, List.pairwise_singleton _ _, fun t ht t' ht' => ?_⟩
    · unfold idleCalls
      rw [List.map_map, List.pairwise_map]
      exact List.pairwise_of_forall fun _ _ => le_rfl
    · obtain ⟨r, hr, rfl⟩ := List.mem_map.mp ht
      obtain ⟨_, -, rfl⟩ := List.mem_map.mp hr
      obtain rfl := List.mem_singleton.mp ht'
      show (0 : ℚ) ≤ 61
      norm_num
  · have hpruned := h idleCalls lateCall [] rfl (congrArg Prod.snd hserve)
    unfold Pruned at hpruned
    rw [show (SlidingWindow.after idleCalls).serve lateCall = _ from hserve] at hpruned
    obtain ⟨t, ht, hsees⟩ := hpruned
      (by
        rw [List.length_append, List.length_map, List.length_map, List.length_range]
        decide)
      (idleKey 0, [0])
      (List.mem_append_left _ (List.mem_map_of_mem (List.mem_map_of_mem
        (List.mem_range.mpr (by decide)))))
    obtain rfl := List.mem_singleton.mp ht
    exact absurd hsees (by unfold Request.Sees lateCall; norm_num)

end Api

end TftAnalytics

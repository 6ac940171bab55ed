import TftAnalytics.Api.Helpers.SlidingWindow
import Mathlib.Algebra.Order.Ring.Rat
import Mathlib.Data.Rat.Floor
/-!
# API — the rate limit

What holds of one key, by induction on its calls: the deque retains what a
window that ends now has of the calls that were allowed, and is no longer
than the limit. The keys do not meet, so it holds of each in any run.
-/

namespace TftAnalytics

namespace Api

open Eviction

variable {K : Type} [Field K] [LinearOrder K] [IsStrictOrderedRing K] [FloorRing K]
variable {limit : GoString → ℤ} {window : GoString → K} {key : GoString}

/-- The calls of a run for one key, in order. -/
structure OneKey (key : GoString) (calls : List (Call K)) : Prop where
  key : ∀ c ∈ calls, c.key = key
  sorted : (calls.map (·.time)).Pairwise (· ≤ ·)

omit [Field K] [IsStrictOrderedRing K] [FloorRing K] in
theorem OneKey.init {calls later : List (Call K)} (h : OneKey key (calls ++ later)) :
    OneKey key calls := by
  refine ⟨fun c hc => h.key c (List.mem_append_left _ hc), ?_⟩
  have hsorted := h.sorted
  rw [List.map_append] at hsorted
  exact (List.pairwise_append.mp hsorted).1

omit [Field K] [IsStrictOrderedRing K] [FloorRing K] in
theorem OneKey.le_last {calls : List (Call K)} {c : Call K} (h : OneKey key (calls ++ [c])) :
    ∀ c' ∈ calls, c'.time ≤ c.time := by
  intro c' hc'
  have hsorted := h.sorted
  rw [List.map_append] at hsorted
  exact (List.pairwise_append.mp hsorted).2.2 _ (List.mem_map_of_mem hc') _ (by simp)

/-- The answers to the calls of one key, and its deque after them. -/
abbrev keyLog (limit : GoString → ℤ) (window : GoString → K) (calls : List (Call K)) :
    List (Call K × Option (Bool × ℤ)) :=
  (deques limit window).reports [] calls

abbrev keyDeque (limit : GoString → ℤ) (window : GoString → K) (calls : List (Call K)) : List K :=
  calls.foldl (deques limit window).next []

/-- The answer to the next call. -/
def nextAnswer (limit : GoString → ℤ) (window : GoString → K) (calls : List (Call K))
    (c : Call K) : Option (Bool × ℤ) :=
  (onDeque (keyDeque limit window calls) c.time (limit c.key) (window c.key)).2

omit [IsStrictOrderedRing K] in
theorem keyLog_concat (calls : List (Call K)) (c : Call K) :
    keyLog limit window (calls ++ [c])
      = keyLog limit window calls ++ [(c, nextAnswer limit window calls c)] :=
  Machine.reports_append ..

omit [IsStrictOrderedRing K] in
theorem keyDeque_concat (calls : List (Call K)) (c : Call K) :
    keyDeque limit window (calls ++ [c])
      = (onDeque (keyDeque limit window calls) c.time (limit c.key) (window c.key)).1 :=
  List.foldl_append ..

omit [IsStrictOrderedRing K] [LinearOrder K] [FloorRing K] [Field K] in
theorem allowedTimes_singleton (c : Call K) (out : Option (Bool × ℤ)) (hkey : c.key = key) :
    allowedTimes [(c, out)] key = if out.map Prod.fst = some true then [c.time] else [] := by
  unfold allowedTimes
  by_cases h : out.map Prod.fst = some true <;> simp [hkey, h]

/-- **What holds of one key** after its calls. -/
structure Kept (limit : ℤ) (window : K) (calls : List (Call K)) (stamps dq : List K) : Prop where
  retained : ∀ t, (∀ c ∈ calls, c.time ≤ t) → Retained window t stamps dq
  length_le : (dq.length : ℤ) ≤ limit
  exact : ∀ t ∈ stamps, (inside window t stamps : ℤ) ≤ limit

omit [FloorRing K] in
/-- **A call that is allowed.** -/
theorem Kept.allow {n : ℤ} {w : K} {calls : List (Call K)} {stamps dq : List K} {c : Call K}
    (h : Kept n w calls stamps dq) (hlast : ∀ c' ∈ calls, c'.time ≤ c.time)
    (hroom : (inside w c.time stamps : ℤ) < n) :
    Kept n w (calls ++ [c]) (stamps ++ [c.time]) (dq.dropWhile (· < c.time - w) ++ [c.time]) := by
  have hnow := h.retained c.time hlast
  refine ⟨fun t ht => ?_, ?_, fun t ht => ?_⟩
  · exact (hnow.evict le_rfl).push.later (ht c (by simp))
  · rw [List.length_append, hnow.length_evict le_rfl, List.length_singleton]
    omega
  · rw [inside_concat]
    rcases lt_or_ge t c.time with hbefore | hafter
    · -- an earlier window does not reach the call
      rw [if_neg fun hx => absurd hx.2 (not_le.mpr hbefore)]
      rcases List.mem_append.mp ht with ht | ht
      · exact h.exact t ht
      · exact absurd (List.mem_singleton.mp ht) hbefore.ne
    · have hle : t ≤ c.time := by
        rcases List.mem_append.mp ht with ht | ht
        · exact hnow.past t ht
        · exact (List.mem_singleton.mp ht).le
      obtain rfl := le_antisymm hle hafter
      split_ifs <;> omega

omit [FloorRing K] in
/-- **A call that is refused.** -/
theorem Kept.refuse {n : ℤ} {w : K} {calls : List (Call K)} {stamps dq : List K} {c : Call K}
    (h : Kept n w calls stamps dq) (hlast : ∀ c' ∈ calls, c'.time ≤ c.time) :
    Kept n w (calls ++ [c]) stamps (dq.dropWhile (· < c.time - w)) := by
  have hnow := h.retained c.time hlast
  refine ⟨fun t ht => (hnow.evict le_rfl).later (ht c (by simp)), ?_, h.exact⟩
  have hlen := (List.dropWhile_sublist (p := fun x => decide (x < c.time - w)) (l := dq)).length_le
  have hdq := h.length_le
  omega

theorem kept (window : GoString → K) (hlimit : 1 ≤ limit key) {calls : List (Call K)}
    (h : OneKey key calls) :
    Kept (limit key) (window key) calls (allowedTimes (keyLog limit window calls) key)
      (keyDeque limit window calls) := by
  induction calls using List.reverseRecOn with
  | nil =>
    refine ⟨fun t _ => retained_nil _ t, ?_, fun _ ht => absurd ht List.not_mem_nil⟩
    show (0 : ℤ) ≤ limit key
    omega
  | append_singleton calls c ih =>
    have hkept := ih h.init
    have hkey : c.key = key := h.key c (by simp)
    have hnow := hkept.retained c.time h.le_last
    rw [keyLog_concat, keyDeque_concat, allowedTimes_append, allowedTimes_singleton c _ hkey,
      nextAnswer, hkey]
    rcases lt_or_ge (inside (window key) c.time
      (allowedTimes (keyLog limit window calls) key) : ℤ) (limit key) with hroom | hfull
    · rw [onDeque_of_lt hnow le_rfl hroom]
      exact hkept.allow h.le_last hroom
    · obtain ⟨first, rest, r, hdq, hout, -⟩ := onDeque_of_le hnow le_rfl hlimit hfull
      rw [hout, ← hdq, if_neg (by simp), List.append_nil]
      exact hkept.refuse h.le_last

/-! ## The answers of one key -/

/-- **The next call** is allowed where the window has room, and else
refused. -/
theorem nextAnswer_cases (window : GoString → K) (hlimit : 1 ≤ limit key)
    {calls : List (Call K)} {c : Call K} (h : OneKey key (calls ++ [c])) :
    ((inside (window key) c.time (allowedTimes (keyLog limit window calls) key) : ℤ) < limit key ∧
      nextAnswer limit window calls c = some (true, 0)) ∨
    (limit key ≤ inside (window key) c.time (allowedTimes (keyLog limit window calls) key) ∧
      ∃ r, nextAnswer limit window calls c = some (false, r)) := by
  have hnow := (kept window hlimit h.init).retained c.time h.le_last
  unfold nextAnswer
  rw [h.key c (by simp)]
  rcases lt_or_ge (inside (window key) c.time
    (allowedTimes (keyLog limit window calls) key) : ℤ) (limit key) with hroom | hfull
  · refine Or.inl ⟨hroom, ?_⟩
    rw [onDeque_of_lt hnow le_rfl hroom]
  · obtain ⟨first, rest, r, -, hout, -⟩ := onDeque_of_le hnow le_rfl hlimit hfull
    refine Or.inr ⟨hfull, r, ?_⟩
    rw [hout]

/-- **The retry is honest**: by then the first stamp has left the window,
and a refused call has left none. -/
theorem nextAnswer_retry (hlimit : 1 ≤ limit key) {calls : List (Call K)} {c c' : Call K}
    (h : OneKey key (calls ++ [c] ++ [c'])) {r : ℤ}
    (hrefused : nextAnswer limit window calls c = some (false, r)) (hle : c.time + r ≤ c'.time) :
    nextAnswer limit window (calls ++ [c]) c' = some (true, 0) := by
  have hkey : c.key = key := h.key c (by simp)
  have hkept := kept window hlimit h.init
  have hnow := (kept window hlimit h.init.init).retained c.time h.init.le_last
  have hnext := hkept.retained c'.time h.le_last
  rcases nextAnswer_cases window hlimit h.init with ⟨-, hallowed⟩ | ⟨hfull, -⟩
  · rw [hrefused] at hallowed
    cases hallowed
  obtain ⟨first, rest, r', -, hout, hfirst⟩ := onDeque_of_le hnow le_rfl hlimit hfull
  have hdeque : keyDeque limit window (calls ++ [c]) = first :: rest := by
    rw [keyDeque_concat, hkey, hout]
  have hr : r' = r := by
    unfold nextAnswer at hrefused
    rw [hkey, hout] at hrefused
    simpa using hrefused
  have hgone : first < c'.time - window key := by
    rw [hr] at hfirst
    linarith
  -- what is left of the deque is shorter than the limit
  have hlen := hnext.length_evict le_rfl
  rw [hdeque, List.dropWhile_cons_of_pos (by simpa using hgone)] at hlen
  have hrest := (List.dropWhile_sublist
    (p := fun x => decide (x < c'.time - window key)) (l := rest)).length_le
  have hbound := hkept.length_le
  rw [hdeque, List.length_cons] at hbound
  rcases nextAnswer_cases window hlimit h with ⟨-, hallowed⟩ | ⟨hfull', -⟩
  · exact hallowed
  · omega

omit [IsStrictOrderedRing K] in
/-- Every call is answered. -/
theorem map_fst_keyLog (limit : GoString → ℤ) (window : GoString → K) (calls : List (Call K)) :
    (keyLog limit window calls).map Prod.fst = calls := by
  induction calls using List.reverseRecOn with
  | nil => rfl
  | append_singleton calls c ih => rw [keyLog_concat, List.map_append, ih, List.map_singleton]

omit [IsStrictOrderedRing K] in
/-- The log of a key, split at a call. -/
theorem keyLog_split {calls : List (Call K)} {pre post : List (Call K × Option (Bool × ℤ))}
    {c : Call K} {out : Option (Bool × ℤ)}
    (h : keyLog limit window calls = pre ++ (c, out) :: post) :
    calls = pre.map Prod.fst ++ c :: post.map Prod.fst ∧
      keyLog limit window (pre.map Prod.fst) = pre ∧
      nextAnswer limit window (pre.map Prod.fst) c = out := by
  have hcalls : calls = pre.map Prod.fst ++ c :: post.map Prod.fst := by
    have hmap := map_fst_keyLog limit window calls
    rw [h, List.map_append, List.map_cons] at hmap
    exact hmap.symm
  have hsplit : keyLog limit window calls
      = keyLog limit window (pre.map Prod.fst)
        ++ ((c, nextAnswer limit window (pre.map Prod.fst) c) ::
          (deques limit window).reports
            ((deques limit window).next (keyDeque limit window (pre.map Prod.fst)) c)
            (post.map Prod.fst)) := by
    rw [hcalls]
    exact Machine.reports_append [] (pre.map Prod.fst) (c :: post.map Prod.fst)
  rw [h] at hsplit
  have hlength : pre.length = (keyLog limit window (pre.map Prod.fst)).length := by
    have hmap := congrArg List.length (map_fst_keyLog limit window (pre.map Prod.fst))
    rw [List.length_map, List.length_map] at hmap
    exact hmap.symm
  obtain ⟨hpre, hrest⟩ := List.append_inj hsplit hlength
  exact ⟨hcalls, hpre.symm, (congrArg Prod.snd (List.cons.inj hrest).1).symm⟩

/-! ## Runs -/

variable (limit window)

omit [IsStrictOrderedRing K] [LinearOrder K] [FloorRing K] [Field K] in
theorem distinct_new : (SlidingWindow.new : SlidingWindow K).Distinct := List.nodup_nil

omit [IsStrictOrderedRing K] in
theorem filter_answers (calls : List (Call K)) (key : GoString) :
    (answers limit window .new calls).filter (fun e => e.1.key = key)
      = keyLog limit window (calls.filter fun c => c.key = key) :=
  answers_filter limit window distinct_new calls key

omit [IsStrictOrderedRing K] in
theorem map_fst_answers (s : SlidingWindow K) (calls : List (Call K)) :
    (answers limit window s calls).map Prod.fst = calls := by
  induction calls generalizing s with
  | nil => rfl
  | cons c calls ih => rw [answers, List.map_cons, ih]

omit [IsStrictOrderedRing K] [FloorRing K] [Field K] in
theorem oneKey_filter {calls : List (Call K)} (hsorted : (calls.map (·.time)).Pairwise (· ≤ ·))
    (key : GoString) : OneKey key (calls.filter fun c => c.key = key) where
  key := fun _ hc => of_decide_eq_true (List.mem_filter.mp hc).2
  sorted := hsorted.sublist (List.filter_sublist.map _)

variable {limit window} {calls : List (Call K)}

omit [IsStrictOrderedRing K] in
/-- **At every call** the log shows what the key has seen, and the answer
is the next one of the key. -/
theorem answers_split (hsorted : (calls.map (·.time)).Pairwise (· ≤ ·))
    {pre post : List (Call K × Option (Bool × ℤ))} {c : Call K} {out : Option (Bool × ℤ)}
    (h : answers limit window .new calls = pre ++ (c, out) :: post) :
    let own := pre.filter fun e => e.1.key = c.key
    OneKey c.key (own.map Prod.fst ++ [c]) ∧ keyLog limit window (own.map Prod.fst) = own ∧
      nextAnswer limit window (own.map Prod.fst) c = out := by
  intro own
  have hown : keyLog limit window (calls.filter fun c' => c'.key = c.key)
      = own ++ (c, out) :: post.filter fun e => e.1.key = c.key := by
    rw [← filter_answers, h, List.filter_append, List.filter_cons_of_pos (by simp)]
  obtain ⟨hcalls, hlog, hout⟩ := keyLog_split hown
  have hone := oneKey_filter hsorted c.key
  rw [hcalls, List.append_cons] at hone
  exact ⟨hone.init, hlog, hout⟩

/-- **No call raises.** -/
theorem answers_ne_none (hlimit : ∀ key, 1 ≤ limit key)
    (hsorted : (calls.map (·.time)).Pairwise (· ≤ ·)) :
    ∀ e ∈ answers limit window .new calls, e.2 ≠ none := by
  intro e he
  obtain ⟨pre, post, hlog⟩ := List.append_of_mem he
  obtain ⟨hone, -, hout⟩ := answers_split hsorted hlog
  rw [← hout]
  rcases nextAnswer_cases window (hlimit e.1.key) hone with ⟨-, h⟩ | ⟨-, r, h⟩
  · rw [h]
    exact Option.some_ne_none _
  · rw [h]
    exact Option.some_ne_none _

/-- **A refusal has a full window behind it.** -/
theorem full_of_refused (hlimit : ∀ key, 1 ≤ limit key)
    (hsorted : (calls.map (·.time)).Pairwise (· ≤ ·))
    {pre post : List (Call K × Option (Bool × ℤ))} {c : Call K} {r : ℤ}
    (h : answers limit window .new calls = pre ++ (c, some (false, r)) :: post) :
    limit c.key ≤ inside (window c.key) c.time (allowedTimes pre c.key) := by
  obtain ⟨hone, hlog, hout⟩ := answers_split hsorted h
  rcases nextAnswer_cases window (hlimit c.key) hone with ⟨-, hallowed⟩ | ⟨hfull, -⟩
  · rw [hout] at hallowed
    cases hallowed
  · rw [hlog, allowedTimes_filter] at hfull
    exact hfull

/-- **A retry is answered.** -/
theorem allowed_of_retry (hlimit : ∀ key, 1 ≤ limit key)
    (hsorted : (calls.map (·.time)).Pairwise (· ≤ ·))
    {pre mid post : List (Call K × Option (Bool × ℤ))} {c c' : Call K} {r : ℤ}
    {out : Option (Bool × ℤ)}
    (h : answers limit window .new calls
      = pre ++ (c, some (false, r)) :: (mid ++ (c', out) :: post))
    (hkey : c'.key = c.key) (hmid : ∀ e ∈ mid, e.1.key ≠ c.key) (hle : c.time + r ≤ c'.time) :
    out = some (true, 0) := by
  have hnone : mid.filter (fun e => e.1.key = c.key) = [] :=
    List.filter_eq_nil_iff.mpr fun e he => by simpa using hmid e he
  obtain ⟨-, -, hrefused⟩ := answers_split hsorted h
  rw [← List.cons_append, ← List.append_assoc] at h
  obtain ⟨hone, -, hout⟩ := answers_split hsorted h
  -- to the key, the two calls are one after the other
  rw [hkey, List.filter_append, List.filter_cons_of_pos (by simp), hnone, List.map_append,
    List.map_singleton] at hone hout
  rw [← hout]
  exact nextAnswer_retry (hlimit c.key) hone hrefused hle

omit [IsStrictOrderedRing K] in
/-- **Other keys do not matter.** -/
theorem answers_isolated (limit : GoString → ℤ) (window : GoString → K) (calls : List (Call K))
    (key : GoString) :
    (answers limit window .new calls).filter (fun e => e.1.key = key)
      = answers limit window .new (calls.filter fun c => c.key = key) := by
  have hown : (answers limit window .new (calls.filter fun c => c.key = key)).filter
      (fun e => e.1.key = key) = answers limit window .new (calls.filter fun c => c.key = key) := by
    refine List.filter_eq_self.mpr fun e he => ?_
    have hmem := List.mem_map_of_mem (f := Prod.fst) he
    rw [map_fst_answers] at hmem
    exact (List.mem_filter.mp hmem).2
  rw [← hown, filter_answers, filter_answers, List.filter_filter]
  simp

/-- **The sliding window is exact, and its retry honest.** For calls at
times that do not go back, with a limit of at least one and a window for
each key: every call returns; a window that ends with an allowed call has
`limit` allowed calls at most; a call is refused only where the window
that ends with it has `limit` of them; when a call is refused for `r`, the
next one for its key is allowed from `r` later on; and the answers to the
calls for a key are those that they have on their own. -/
theorem sliding_window_exact (limit : GoString → ℤ) (window : GoString → K)
    (hlimit : ∀ key, 1 ≤ limit key) (calls : List (Call K))
    (hsorted : (calls.map (·.time)).Pairwise (· ≤ ·)) :
    let log := answers limit window .new calls
    log.map Prod.fst = calls ∧ (∀ e ∈ log, e.2 ≠ none) ∧
      (∀ key, ∀ t ∈ allowedTimes log key,
        (inside (window key) t (allowedTimes log key) : ℤ) ≤ limit key) ∧
      (∀ pre (c : Call K) r post, log = pre ++ (c, some (false, r)) :: post →
        limit c.key ≤ inside (window c.key) c.time (allowedTimes pre c.key)) ∧
      (∀ pre (c : Call K) (r : ℤ) mid (c' : Call K) out post,
        log = pre ++ (c, some (false, r)) :: (mid ++ (c', out) :: post) → c'.key = c.key →
        (∀ e ∈ mid, e.1.key ≠ c.key) → c.time + r ≤ c'.time → out = some (true, 0)) ∧
      ∀ key, log.filter (fun e => e.1.key = key)
        = answers limit window .new (calls.filter fun c => c.key = key) := by
  intro log
  refine ⟨map_fst_answers limit window _ calls, answers_ne_none hlimit hsorted, fun key => ?_,
    fun pre c r post h => full_of_refused hlimit hsorted h,
    fun pre c r mid c' out post h hkey hmid hle => allowed_of_retry hlimit hsorted h hkey hmid hle,
    answers_isolated limit window calls⟩
  have hkept := kept window (hlimit key) (oneKey_filter hsorted key)
  rw [← filter_answers, allowedTimes_filter] at hkept
  exact hkept.exact

/-- Two calls at once and two more, in a minute and after it. -/
theorem sliding_window_exact_minute :
    let log := answers (fun _ => 2) (fun _ => (60 : ℚ)) .new
      ([0, 0, 30, 61].map fun t => ⟨ascii "g:10.0.0.1", t⟩)
    ∀ t ∈ allowedTimes log (ascii "g:10.0.0.1"),
      (inside 60 t (allowedTimes log (ascii "g:10.0.0.1")) : ℤ) ≤ 2 :=
  (sliding_window_exact (fun _ => 2) (fun _ => (60 : ℚ)) (fun _ => by decide) _
    (by norm_num)).2.2.1 _

end Api

end TftAnalytics

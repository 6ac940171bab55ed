import TftAnalytics.Api.Model.Middleware
import TftAnalytics.Api.RateLimit
import TftAnalytics.Common.Observed
/-!
# API — what the middleware lets through

The middleware drives two limiters and a cap, and each sees only what the
ones before it let pass. So the log of a run, seen at one guard, is a run
of that guard alone, and what holds of a sliding window holds of it. The
cap counts what was forwarded since the day has changed.
-/

namespace TftAnalytics

namespace Api

open Eviction

variable {K : Type}

/-! ## The cap -/

/-- How many calls of the cap were allowed, in a log of days and answers. -/
def allowedIn (log : List (ℤ × Bool)) : ℕ := log.countP fun p => p.2

theorem allowedIn_append (log log' : List (ℤ × Bool)) :
    allowedIn (log ++ log') = allowedIn log + allowedIn log' := List.countP_append ..

/-- The calls since the day has changed. -/
def sameDay (day : ℤ) (log : List (ℤ × Bool)) : List (ℤ × Bool) :=
  log.rtakeWhile fun p => p.1 = day

theorem sameDay_append {day : ℤ} {seg : List (ℤ × Bool)} (h : ∀ p ∈ seg, p.1 = day)
    (old : List (ℤ × Bool)) : sameDay day (old ++ seg) = sameDay day old ++ seg := by
  unfold sameDay List.rtakeWhile
  rw [List.reverse_append, List.takeWhile_append_of_pos, List.reverse_append, List.reverse_reverse]
  intro p hp
  exact decide_eq_true (h p (List.mem_reverse.mp hp))

/-- Days change where they differ from the last one. -/
theorem sameDay_eq_nil {day : ℤ} {log : List (ℤ × Bool)} (h : ∀ p ∈ log.getLast?, p.1 ≠ day) :
    sameDay day log = [] := by
  rcases List.eq_nil_or_concat' log with rfl | ⟨init, p, rfl⟩
  · rfl
  · exact List.rtakeWhile_concat_neg _ _ _ (by simpa using h p (by simp))

/-- **What the cap counts**: the calls that were allowed since the day has
changed. No stretch of calls on one day has more than the cap of them. -/
structure Counted (cap : ℤ) (log : List (ℤ × Bool)) (c : DailyCap) : Prop where
  cap_eq : c.cap = cap
  le_cap : c.count ≤ cap
  last : ∀ p ∈ log.getLast?, p.1 = c.day
  today : (allowedIn (sameDay c.day log) : ℤ) = c.count
  bound : ∀ old seg later d, log = old ++ seg ++ later → (∀ p ∈ seg, p.1 = d) →
    (allowedIn seg : ℤ) ≤ cap

theorem counted_new {cap : ℤ} (h : 0 ≤ cap) : Counted cap [] (.new cap) where
  cap_eq := rfl
  le_cap := h
  last := by simp
  today := rfl
  bound := by
    intro old seg later d hlog _
    obtain ⟨hpre, -⟩ := List.append_eq_nil_iff.mp hlog.symm
    rw [(List.append_eq_nil_iff.mp hpre).2]
    exact h

/-- **A new day** starts from nothing. -/
theorem Counted.reset {cap : ℤ} {log : List (ℤ × Bool)} {c : DailyCap} (h : Counted cap log c)
    (day : ℤ) : (c.reset day).cap = cap ∧ (c.reset day).day = day ∧ (c.reset day).count ≤ cap ∧
      (allowedIn (sameDay day log) : ℤ) = (c.reset day).count := by
  have hpos : 0 ≤ c.count := by
    rw [← h.today]
    exact Int.natCast_nonneg _
  unfold DailyCap.reset
  split_ifs with hday
  · refine ⟨h.cap_eq, rfl, hpos.trans h.le_cap, ?_⟩
    rw [sameDay_eq_nil fun p hp => (h.last p hp).trans_ne (Ne.symm hday)]
    rfl
  · obtain rfl := not_not.mp hday
    exact ⟨h.cap_eq, rfl, h.le_cap, h.today⟩

/-- A call on a day. -/
theorem Counted.allow {cap : ℤ} {log : List (ℤ × Bool)} {c : DailyCap} (h : Counted cap log c)
    (day : ℤ) : Counted cap (log ++ [(day, (c.allow day).2)]) (c.allow day).1 := by
  obtain ⟨hcap, hday, hle, htoday⟩ := h.reset day
  have hallow : (c.allow day).1.cap = cap ∧ (c.allow day).1.day = day ∧
      (c.allow day).1.count ≤ cap ∧
      (allowedIn (sameDay day (log ++ [(day, (c.allow day).2)])) : ℤ) = (c.allow day).1.count := by
    rw [sameDay_append (by simp), allowedIn_append, Nat.cast_add, htoday]
    unfold DailyCap.allow
    dsimp only
    split_ifs with hfull
    · exact ⟨hcap, hday, hle, by simp [allowedIn]⟩
    · exact ⟨hcap, hday, by dsimp only; omega, by simp [allowedIn]⟩
  obtain ⟨hcap', hday', hle', htoday'⟩ := hallow
  refine ⟨hcap', hle', by simp [hday'], by rw [hday', htoday'], fun old seg later d hlog hseg => ?_⟩
  rcases List.eq_nil_or_concat' later with rfl | ⟨init, p, rfl⟩
  · rw [List.append_nil] at hlog
    rcases List.eq_nil_or_concat' seg with rfl | ⟨seg, p, rfl⟩
    · exact (Int.natCast_nonneg _).trans (htoday'.symm ▸ hle')
    · -- a stretch that ends now is on this day
      have hp : (day, (c.allow day).2) = p := by
        rw [← List.append_assoc] at hlog
        exact (List.append_inj' hlog rfl).2 |> List.cons.inj |>.1
      have hd : day = d := by
        have := hseg p (by simp)
        rw [← hp] at this
        exact this
      rw [hlog, sameDay_append (hd ▸ hseg), allowedIn_append, Nat.cast_add] at htoday'
      have := Int.natCast_nonneg (allowedIn (sameDay day old))
      omega
  · rw [← List.append_assoc] at hlog
    exact h.bound old seg init d (List.append_inj' hlog rfl).1 hseg

/-- **Where the cap refuses** as many were allowed on that day. -/
theorem Counted.refused {cap : ℤ} {log : List (ℤ × Bool)} {c : DailyCap} (h : Counted cap log c)
    {day : ℤ} (hrefused : (c.allow day).2 = false) :
    ∃ old seg, log = old ++ seg ∧ (∀ p ∈ seg, p.1 = day) ∧ (allowedIn seg : ℤ) = cap := by
  obtain ⟨hcap, -, hle, htoday⟩ := h.reset day
  refine ⟨log.rdropWhile fun p => p.1 = day, sameDay day log,
    (List.rdropWhile_append_rtakeWhile ..).symm, fun p hp => ?_, ?_⟩
  · have hmem : p ∈ log.rtakeWhile fun p => p.1 = day := hp
    have hdec := List.mem_rtakeWhile_imp hmem
    exact of_decide_eq_true hdec
  · unfold DailyCap.allow at hrefused
    dsimp only at hrefused
    split_ifs at hrefused with hfull
    omega

/-! ## A guard on its own -/

/-- The limit of a guard, the clock that it reads and its limiter. -/
def Guard.rate (limits : Limits K) : Guard → ℤ
  | .ip => limits.ratePerMin
  | .player => limits.playerRatePerMin

@[inherit_doc Guard.rate]
def Guard.now : Guard → HttpRequest K → K
  | .ip, r => r.now
  | .player, r => r.playerNow

@[inherit_doc Guard.rate]
def Guard.limiter : Guard → Gate K → SlidingWindow K
  | .ip, g => g.globalRl
  | .player, g => g.playerRl

/-- Its call for a request. -/
def Guard.call : Guard → HttpRequest K → Call K
  | .ip, r => ⟨Gate.ipKey r, r.now⟩
  | .player, r => ⟨Gate.playerKey r, r.playerNow⟩

/-- It refused the request, or raised. -/
def Verdict.stoppedBy (guard : Guard) : Verdict → Bool
  | .limited g _ | .raised g => g = guard
  | .capped | .forwarded => false

/-- It was asked about the request. -/
def Guard.asked : Guard → HttpRequest K × Verdict → Bool
  | .ip, _ => true
  | .player, e => isRiot e.1.path && !e.2.stoppedBy .ip

/-- It was asked, and let the request pass. -/
def Guard.admitted (guard : Guard) (e : HttpRequest K × Verdict) : Bool :=
  guard.asked e && !e.2.stoppedBy guard

/-- What it answered. -/
def Verdict.answer (guard : Guard) : Verdict → Option (Bool × ℤ)
  | .limited g retry => if g = guard then some (false, retry) else some (true, 0)
  | .raised g => if g = guard then none else some (true, 0)
  | .capped | .forwarded => some (true, 0)

/-- When the requests of a client passed a guard. -/
def Guard.hits (guard : Guard) (ip : GoString) (log : List (HttpRequest K × Verdict)) : List K :=
  (log.filter fun e => clientIp e.1 = ip ∧ guard.admitted e).map fun e => guard.now e.1

/-- The key of a client. -/
def Guard.key : Guard → GoString → GoString
  | .ip, client => ascii "g:" ++ client
  | .player, client => ascii "p:" ++ client

theorem call_time (guard : Guard) (r : HttpRequest K) : (guard.call r).time = guard.now r := by
  cases guard <;> rfl

theorem call_key (guard : Guard) (r : HttpRequest K) :
    (guard.call r).key = guard.key (clientIp r) := by
  cases guard <;> rfl

/-- Each client has its own. -/
theorem key_inj {guard : Guard} {ip ip' : GoString} :
    guard.key ip = guard.key ip' ↔ ip = ip' := by
  cases guard <;> exact List.append_right_inj _

theorem answer_allowed_iff {guard : Guard} {v : Verdict} :
    (v.answer guard).map Prod.fst = some true ↔ v.stoppedBy guard = false := by
  rcases v with ⟨g, retry⟩ | g | _ | _ <;> simp only [Verdict.answer, Verdict.stoppedBy]
  · by_cases h : g = guard <;> simp [h]
  · by_cases h : g = guard <;> simp [h]
  · simp
  · simp

section

variable [Ring K] [LinearOrder K] [FloorRing K] (limits : Limits K)

/-- A limiter that allows says so without a time. -/
theorem allow_answer (s : SlidingWindow K) (now : K) (key : GoString) (limit : ℤ) (window : K) :
    (s.allow now key limit window).2 = some (true, 0) ∨ (s.allow now key limit window).2 = none ∨
      ∃ retry, (s.allow now key limit window).2 = some (false, retry) := by
  unfold SlidingWindow.allow
  dsimp only
  split_ifs
  · rcases (held [] _ key).head? with _ | first
    · exact .inr (.inl rfl)
    · exact .inr (.inr ⟨_, rfl⟩)
  · exact .inl rfl

omit [Ring K] [LinearOrder K] [FloorRing K] in
/-- The cap has no say on the limiters. -/
theorem rateLimitLookup_spec (g : Gate K) (r : HttpRequest K) :
    (g.rateLimitLookup limits r).1.globalRl = g.globalRl ∧
      (g.rateLimitLookup limits r).1.playerRl = g.playerRl ∧
      ∀ guard, (g.rateLimitLookup limits r).2.answer guard = some (true, 0) ∧
        (g.rateLimitLookup limits r).2.stoppedBy guard = false := by
  unfold Gate.rateLimitLookup
  dsimp only
  split_ifs <;> exact ⟨rfl, rfl, fun _ => ⟨rfl, rfl⟩⟩

/-- The second check leaves the first. -/
theorem rateLimitRiot_ip (g : Gate K) (r : HttpRequest K) :
    (g.rateLimitRiot limits r).1.globalRl = g.globalRl ∧
      (g.rateLimitRiot limits r).2.answer .ip = some (true, 0) ∧
      (g.rateLimitRiot limits r).2.stoppedBy .ip = false := by
  have hcheck : (g.checkPlayer limits r).1.globalRl = g.globalRl := by
    unfold Gate.checkPlayer
    split_ifs <;> rfl
  obtain ⟨hglobal, -, hpass⟩ := rateLimitLookup_spec limits (g.checkPlayer limits r).1 r
  unfold Gate.rateLimitRiot
  dsimp only
  split
  · exact ⟨hcheck, rfl, rfl⟩
  · exact ⟨hcheck, rfl, rfl⟩
  · exact ⟨hglobal.trans hcheck, (hpass .ip).1, (hpass .ip).2⟩

/-- **The second check**, on a request that the first allows. -/
theorem rateLimitRiot_player (hrate : 0 < limits.playerRatePerMin) (g : Gate K)
    (r : HttpRequest K) :
    if isRiot r.path then
      (g.rateLimitRiot limits r).1.playerRl
          = (g.playerRl.allow r.playerNow (Gate.playerKey r) limits.playerRatePerMin
              limits.window).1 ∧
        (g.rateLimitRiot limits r).2.answer .player
          = (g.playerRl.allow r.playerNow (Gate.playerKey r) limits.playerRatePerMin
              limits.window).2
    else (g.rateLimitRiot limits r).1.playerRl = g.playerRl := by
  obtain ⟨-, hplayer, hpass⟩ := rateLimitLookup_spec limits (g.checkPlayer limits r).1 r
  unfold Gate.rateLimitRiot
  split_ifs with hriot
  · have hcheck : g.checkPlayer limits r
        = ({ g with playerRl := (g.playerRl.allow r.playerNow (Gate.playerKey r)
              limits.playerRatePerMin limits.window).1 },
            (g.playerRl.allow r.playerNow (Gate.playerKey r) limits.playerRatePerMin
              limits.window).2) := if_pos ⟨hriot, hrate⟩
    rw [hcheck] at hplayer hpass ⊢
    dsimp only at hplayer hpass ⊢
    rcases allow_answer g.playerRl r.playerNow (Gate.playerKey r) limits.playerRatePerMin
      limits.window with hout | hout | ⟨retry, hout⟩ <;> rw [hout]
    · exact ⟨hplayer, (hpass .player).1⟩
    · exact ⟨rfl, rfl⟩
    · exact ⟨rfl, rfl⟩
  · have hcheck : g.checkPlayer limits r = (g, some (true, 0)) := if_neg fun h => hriot h.1
    rw [hcheck] at hplayer ⊢
    exact hplayer

/-- **The first check.** -/
theorem rateLimit_ip (hrate : 0 < limits.ratePerMin) (g : Gate K) (r : HttpRequest K) :
    (g.rateLimit limits r).1.globalRl
        = (g.globalRl.allow r.now (Gate.ipKey r) limits.ratePerMin limits.window).1 ∧
      (g.rateLimit limits r).2.answer .ip
        = (g.globalRl.allow r.now (Gate.ipKey r) limits.ratePerMin limits.window).2 := by
  have hcheck : g.checkIp limits r
      = ({ g with globalRl := (g.globalRl.allow r.now (Gate.ipKey r) limits.ratePerMin
            limits.window).1 },
          (g.globalRl.allow r.now (Gate.ipKey r) limits.ratePerMin limits.window).2) := if_pos hrate
  obtain ⟨hglobal, hpass, -⟩ := rateLimitRiot_ip limits (g.checkIp limits r).1 r
  unfold Gate.rateLimit
  rw [hcheck] at hglobal hpass ⊢
  dsimp only at hglobal hpass ⊢
  rcases allow_answer g.globalRl r.now (Gate.ipKey r) limits.ratePerMin limits.window with
    hout | hout | ⟨retry, hout⟩ <;> rw [hout]
  · exact ⟨hglobal, hpass⟩
  · exact ⟨rfl, rfl⟩
  · exact ⟨rfl, rfl⟩

/-- A request that the first check stops does not reach the second. -/
theorem rateLimit_cases (g : Gate K) (r : HttpRequest K) :
    ∃ g' : Gate K, g'.playerRl = g.playerRl ∧
      (g.rateLimit limits r = g'.rateLimitRiot limits r ∨
        (g.rateLimit limits r).1 = g' ∧ (g.rateLimit limits r).2.stoppedBy .ip = true) := by
  refine ⟨(g.checkIp limits r).1, ?_, ?_⟩
  · unfold Gate.checkIp
    split_ifs <;> rfl
  · unfold Gate.rateLimit
    dsimp only
    split
    · exact .inr ⟨rfl, rfl⟩
    · exact .inr ⟨rfl, rfl⟩
    · exact .inl rfl

/-- **One request at one guard.** -/
theorem rateLimit_guard {guard : Guard} (hrate : 0 < guard.rate limits) (g : Gate K)
    (r : HttpRequest K) :
    if guard.asked (r, (g.rateLimit limits r).2) then
      guard.limiter (g.rateLimit limits r).1
          = ((guard.limiter g).allow (guard.call r).time (guard.call r).key (guard.rate limits)
              limits.window).1 ∧
        (g.rateLimit limits r).2.answer guard
          = ((guard.limiter g).allow (guard.call r).time (guard.call r).key (guard.rate limits)
              limits.window).2
    else guard.limiter (g.rateLimit limits r).1 = guard.limiter g := by
  cases guard with
  | ip =>
    rw [if_pos (by rfl)]
    exact rateLimit_ip limits hrate g r
  | player =>
    obtain ⟨g', hsame, hlimit | ⟨hg', hstop⟩⟩ := rateLimit_cases limits g r
    · have hriot := rateLimitRiot_player limits hrate g' r
      have hpass := (rateLimitRiot_ip limits g' r).2.2
      rw [hsame] at hriot
      simp only [hlimit, Guard.asked, hpass, Bool.not_false, Bool.and_true]
      split_ifs with hpath
      · rw [if_pos hpath] at hriot
        exact hriot
      · rw [if_neg hpath] at hriot
        exact hriot
    · rw [if_neg (by simp [Guard.asked, hstop]), hg']
      exact hsame

/-- **A guard sees a run of its own**: its answers are those of a limiter to
the requests that it is asked about. -/
theorem answers_guard {guard : Guard} (hrate : 0 < guard.rate limits) (g : Gate K)
    (rs : List (HttpRequest K)) :
    answers (fun _ => guard.rate limits) (fun _ => limits.window) (guard.limiter g)
        (((g.verdicts limits rs).filter guard.asked).map fun e => guard.call e.1)
      = ((g.verdicts limits rs).filter guard.asked).map fun e =>
          (guard.call e.1, e.2.answer guard) := by
  induction rs generalizing g with
  | nil => rfl
  | cons r rs ih =>
    have hstep := rateLimit_guard limits hrate g r
    have hcons : g.verdicts limits (r :: rs)
        = (r, (g.rateLimit limits r).2) :: (g.rateLimit limits r).1.verdicts limits rs := rfl
    rw [hcons]
    by_cases hasked : guard.asked (r, (g.rateLimit limits r).2)
    · rw [if_pos hasked] at hstep
      rw [List.filter_cons_of_pos hasked, List.map_cons, List.map_cons, answers, ← hstep.1,
        ← hstep.2, ih]
    · rw [if_neg hasked] at hstep
      rw [List.filter_cons_of_neg hasked, ← hstep, ih]

omit [Ring K] [LinearOrder K] [FloorRing K] in
/-- **What passed a guard** is what its limiter allowed. -/
theorem hits_eq (guard : Guard) (ip : GoString) (log : List (HttpRequest K × Verdict)) :
    guard.hits ip log = allowedTimes
      ((log.filter guard.asked).map fun e => (guard.call e.1, e.2.answer guard))
      (guard.key ip) := by
  unfold allowedTimes Guard.hits
  rw [List.filter_map, List.map_map, List.filter_filter]
  have hfilter : log.filter (fun e => clientIp e.1 = ip ∧ guard.admitted e)
      = log.filter fun e => ((fun e : Call K × Option (Bool × ℤ) =>
          decide (e.1.key = guard.key ip ∧ e.2.map Prod.fst = some true)) ∘
            fun e => (guard.call e.1, e.2.answer guard)) e && guard.asked e := by
    refine List.filter_congr fun e _ => ?_
    simp only [Function.comp_apply, call_key, key_inj, answer_allowed_iff, Guard.admitted]
    by_cases hip : clientIp e.1 = ip <;> by_cases hasked : guard.asked e <;> simp [hip, hasked]
  rw [hfilter]
  exact List.map_congr_left fun e _ => (call_time guard e.1).symm

/-- Every request has its verdict. -/
theorem map_fst_verdicts (g : Gate K) (rs : List (HttpRequest K)) :
    (g.verdicts limits rs).map Prod.fst = rs := by
  induction rs generalizing g with
  | nil => rfl
  | cons r rs ih => exact congrArg (r :: ·) (ih _)

/-- A guard that stops a request was asked about it, and has a limit. -/
theorem rateLimit_stopped {guard : Guard} {g : Gate K} {r : HttpRequest K}
    (h : (g.rateLimit limits r).2.stoppedBy guard = true) :
    guard.asked (r, (g.rateLimit limits r).2) = true ∧ 0 < guard.rate limits := by
  cases guard with
  | ip =>
    refine ⟨rfl, ?_⟩
    by_contra hrate
    have hcheck : g.checkIp limits r = (g, some (true, 0)) := if_neg hrate
    have hpass := (rateLimitRiot_ip limits g r).2.2
    unfold Gate.rateLimit at h
    rw [hcheck] at h
    exact absurd (hpass.symm.trans h) Bool.false_ne_true
  | player =>
    obtain ⟨g', -, hlimit | ⟨-, hstop⟩⟩ := rateLimit_cases limits g r
    · have hpass := (rateLimitRiot_ip limits g' r).2.2
      rw [hlimit] at h ⊢
      have hasks : isRiot r.path ∧ 0 < limits.playerRatePerMin := by
        by_contra hneg
        have hcheck : g'.checkPlayer limits r = (g', some (true, 0)) := if_neg hneg
        unfold Gate.rateLimitRiot at h
        rw [hcheck] at h
        have hnone := ((rateLimitLookup_spec limits g' r).2.2 .player).2
        exact absurd (hnone.symm.trans h) Bool.false_ne_true
      exact ⟨by simp [Guard.asked, hasks.1, hpass], hasks.2⟩
    · -- no verdict is of both
      rcases hv : (g.rateLimit limits r).2 with ⟨guard, retry⟩ | guard | _ | _ <;>
        rw [hv] at h hstop <;>
        simp only [Verdict.stoppedBy, decide_eq_true_eq, Bool.false_eq_true] at h hstop
      · exact absurd (h.symm.trans hstop) (by simp)
      · exact absurd (h.symm.trans hstop) (by simp)

/-- And so are those in a log. -/
theorem stopped_of_mem {guard : Guard} {g : Gate K} {rs : List (HttpRequest K)}
    {e : HttpRequest K × Verdict} (he : e ∈ g.verdicts limits rs) (h : e.2.stoppedBy guard = true) :
    guard.asked e = true ∧ 0 < guard.rate limits := by
  induction rs generalizing g with
  | nil => cases he
  | cons r rs ih =>
    have hcons : g.verdicts limits (r :: rs)
        = (r, (g.rateLimit limits r).2) :: (g.rateLimit limits r).1.verdicts limits rs := rfl
    rw [hcons] at he
    rcases List.mem_cons.mp he with rfl | he
    · exact rateLimit_stopped limits h
    · exact ih he

/-! ## The cap in a run -/

/-- The lookups that reach the cap. -/
def reachesCap (e : HttpRequest K × Verdict) : Bool :=
  playerPath <+: e.1.path ∧ (e.2 = .capped ∨ e.2 = .forwarded)

/-- What the cap sees of a run. -/
def capLog (log : List (HttpRequest K × Verdict)) : List (ℤ × Bool) :=
  (log.filter reachesCap).map fun e => (e.1.day, decide (e.2 = .forwarded))

/-- A request that is stopped before does not reach the cap. -/
theorem rateLimit_lookup (g : Gate K) (r : HttpRequest K) :
    ∃ g' : Gate K, g'.riotDaily = g.riotDaily ∧
      (g.rateLimit limits r = g'.rateLimitLookup limits r ∨
        (g.rateLimit limits r).1 = g' ∧
          ∃ guard, (g.rateLimit limits r).2.stoppedBy guard = true) := by
  have hip : (g.checkIp limits r).1.riotDaily = g.riotDaily := by
    unfold Gate.checkIp
    split_ifs <;> rfl
  have hplayer : ((g.checkIp limits r).1.checkPlayer limits r).1.riotDaily = g.riotDaily := by
    rw [← hip]
    unfold Gate.checkPlayer
    split_ifs <;> rfl
  unfold Gate.rateLimit Gate.rateLimitRiot
  dsimp only
  split
  · exact ⟨_, hip, .inr ⟨rfl, .ip, rfl⟩⟩
  · exact ⟨_, hip, .inr ⟨rfl, .ip, rfl⟩⟩
  · split
    · exact ⟨_, hplayer, .inr ⟨rfl, .player, rfl⟩⟩
    · exact ⟨_, hplayer, .inr ⟨rfl, .player, rfl⟩⟩
    · exact ⟨_, hplayer, .inl rfl⟩

/-- **A request at the cap.** -/
theorem counted_rateLimit (hcap : 0 < limits.riotDailyCap) {g : Gate K}
    {log : List (HttpRequest K × Verdict)}
    (h : Counted limits.riotDailyCap (capLog log) g.riotDaily) (r : HttpRequest K) :
    Counted limits.riotDailyCap (capLog (log ++ [(r, (g.rateLimit limits r).2)]))
      (g.rateLimit limits r).1.riotDaily := by
  unfold capLog at h ⊢
  rw [List.filter_append, List.map_append]
  obtain ⟨g', hsame, hlimit | ⟨hg', guard, hstop⟩⟩ := rateLimit_lookup limits g r
  · rw [hlimit]
    rw [← hsame] at h
    unfold Gate.rateLimitLookup
    dsimp only
    by_cases hpath : playerPath <+: r.path
    · rw [if_pos ⟨hpath, hcap⟩]
      have hallow := h.allow r.day
      rcases hout : (g'.riotDaily.allow r.day).2 <;> rw [hout] at hallow
      · simpa [reachesCap, hpath] using hallow
      · simpa [reachesCap, hpath] using hallow
    · rw [if_neg fun hp => hpath hp.1]
      simpa [reachesCap, hpath] using h
  · have hnot : reachesCap (r, (g.rateLimit limits r).2) = false := by
      unfold reachesCap
      rcases hv : (g.rateLimit limits r).2 with ⟨_, _⟩ | _ | _ | _ <;> rw [hv] at hstop <;>
        simp at *
      · cases hstop
      · cases hstop
    rw [List.filter_cons_of_neg (by simp [hnot])]
    rw [hg', hsame]
    simpa using h

/-- **The cap sees a run of its own.** -/
theorem counted_verdicts (hcap : 0 < limits.riotDailyCap) (rs : List (HttpRequest K)) :
    Counted limits.riotDailyCap (capLog ((Gate.new limits).verdicts limits rs))
      (rs.foldl (Gate.machine limits).next (.new limits)).riotDaily := by
  have hnew : Counted limits.riotDailyCap (capLog ([] : List (HttpRequest K × Verdict)))
      (Gate.new limits).riotDaily := counted_new hcap.le
  exact Machine.invariant_run (M := Gate.machine limits)
    (P := fun log g => Counted limits.riotDailyCap (capLog log) g.riotDaily)
    (fun r _ _ _ h => counted_rateLimit limits hcap h r) hnew

omit [Ring K] [LinearOrder K] [FloorRing K] in
/-- A log seen at the cap, cut. -/
theorem exists_capLog_cut {log : List (HttpRequest K × Verdict)} {l₁ l₂ : List (ℤ × Bool)}
    (h : capLog log = l₁ ++ l₂) : ∃ old seg, log = old ++ seg ∧ capLog seg = l₂ := by
  obtain ⟨k₁, k₂, hfilter, -, hseg⟩ := List.map_eq_append_iff.mp h
  obtain ⟨old, seg, rfl, -, hseg'⟩ := List.filter_eq_append_iff.mp hfilter
  exact ⟨old, seg, rfl, by rw [capLog, hseg', hseg]⟩

/-- The lookups that are forwarded. -/
def lookups (log : List (HttpRequest K × Verdict)) : ℕ :=
  log.countP fun e => playerPath <+: e.1.path ∧ e.2 = .forwarded

omit [Ring K] [LinearOrder K] [FloorRing K] in
theorem allowedIn_capLog (log : List (HttpRequest K × Verdict)) :
    allowedIn (capLog log) = lookups log := by
  unfold allowedIn capLog lookups
  rw [List.countP_map, List.countP_filter]
  refine List.countP_congr fun e _ => ?_
  simp only [Function.comp_apply, reachesCap, Bool.and_eq_true, decide_eq_true_eq]
  constructor
  · rintro ⟨hforward, hpath, -⟩
    exact ⟨hpath, hforward⟩
  · rintro ⟨hpath, hforward⟩
    exact ⟨hforward, hpath, .inr hforward⟩

omit [Ring K] [LinearOrder K] [FloorRing K] in
theorem day_of_mem_capLog {log : List (HttpRequest K × Verdict)} {d : ℤ}
    (h : ∀ e ∈ log, reachesCap e → e.1.day = d) : ∀ p ∈ capLog log, p.1 = d := by
  intro p hp
  obtain ⟨e, he, rfl⟩ := List.mem_map.mp hp
  obtain ⟨hmem, hreach⟩ := List.mem_filter.mp he
  exact h e hmem hreach

omit [Ring K] [LinearOrder K] [FloorRing K] in
theorem day_of_capLog {log : List (HttpRequest K × Verdict)} {d : ℤ}
    (h : ∀ p ∈ capLog log, p.1 = d) : ∀ e ∈ log, reachesCap e → e.1.day = d :=
  fun _ he hreach => h _ (List.mem_map_of_mem (List.mem_filter.mpr ⟨he, hreach⟩))

/-- A refusal of the cap is one of a lookup that reaches it. -/
theorem refused_of_capped {g : Gate K} {r : HttpRequest K}
    (h : (g.rateLimit limits r).2 = .capped) :
    0 < limits.riotDailyCap ∧ (g.riotDaily.allow r.day).2 = false := by
  obtain ⟨g', hsame, hlimit | ⟨-, guard, hstop⟩⟩ := rateLimit_lookup limits g r
  · rw [hlimit] at h
    unfold Gate.rateLimitLookup at h
    dsimp only at h
    split_ifs at h with hpath hout
    · rw [hsame] at hout
      exact ⟨hpath.2, by simpa using hout⟩
  · rw [h] at hstop
    cases hstop

/-- **Where the cap refuses**, the day is used up. -/
theorem used_of_capped {rs : List (HttpRequest K)} {pre post : List (HttpRequest K × Verdict)}
    {r : HttpRequest K}
    (hlog : (Gate.new limits).verdicts limits rs = pre ++ (r, .capped) :: post) :
    ∃ old seg, pre = old ++ seg ∧ (∀ e ∈ seg, reachesCap e → e.1.day = r.day) ∧
      (lookups seg : ℤ) = limits.riotDailyCap := by
  let P : List (HttpRequest K × Verdict) → Gate K → Prop := fun log g =>
    0 < limits.riotDailyCap → Counted limits.riotDailyCap (capLog log) g.riotDaily
  let Q : List (HttpRequest K × Verdict) → HttpRequest K × Verdict → Prop := fun log e =>
    e.2 = .capped → ∃ old seg, log = old ++ seg ∧ (∀ e' ∈ seg, reachesCap e' → e'.1.day = e.1.day) ∧
      (lookups seg : ℤ) = limits.riotDailyCap
  have hreport : ∀ r ∈ rs, ∀ log g e, P log g → (Gate.machine limits).report g r = some e →
      Q log e := by
    intro r _ log g _ hP he hcapped
    obtain rfl := Option.some.inj he
    obtain ⟨hcap, hrefused⟩ := refused_of_capped limits hcapped
    obtain ⟨old, seg, hcut, hday, hall⟩ := (hP hcap).refused hrefused
    obtain ⟨old, seg, rfl, rfl⟩ := exists_capLog_cut hcut
    exact ⟨old, seg, rfl, day_of_capLog hday, by rw [← allowedIn_capLog, hall]⟩
  have hnew : P [] (.new limits) := fun hcap => counted_new hcap.le
  exact Machine.report_of_run (M := Gate.machine limits) (P := P) (Q := Q)
    (fun r _ _ _ h hcap => counted_rateLimit limits hcap (h hcap) r) hreport hnew hlog rfl

end

variable [Field K] [LinearOrder K] [IsStrictOrderedRing K] [FloorRing K]
variable {rs : List (HttpRequest K)}

omit [IsStrictOrderedRing K] in
/-- The calls of a guard are in order. -/
theorem calls_sorted (limits : Limits K) {guard : Guard}
    (hsorted : (rs.map guard.now).Pairwise (· ≤ ·)) (g : Gate K) :
    ((((g.verdicts limits rs).filter guard.asked).map fun e => guard.call e.1).map
      (·.time)).Pairwise (· ≤ ·) := by
  have hmap : (g.verdicts limits rs).map (fun e => guard.now e.1) = rs.map guard.now := by
    conv_rhs => rw [← map_fst_verdicts limits g rs, List.map_map]
    rfl
  have htimes : ((g.verdicts limits rs).filter guard.asked).map
      ((·.time) ∘ fun e => guard.call e.1)
        = ((g.verdicts limits rs).filter guard.asked).map fun e => guard.now e.1 :=
    List.map_congr_left fun e _ => call_time guard e.1
  rw [← hmap] at hsorted
  rw [List.map_map, htimes]
  exact hsorted.sublist (List.filter_sublist.map _)

variable {limits : Limits K}

/-- **No guard lets too many pass.** -/
theorem inside_hits_le {guard : Guard} (hrate : 0 < guard.rate limits)
    (hsorted : (rs.map guard.now).Pairwise (· ≤ ·)) (ip : GoString) :
    let hits := guard.hits ip ((Gate.new limits).verdicts limits rs)
    ∀ t ∈ hits, (inside limits.window t hits : ℤ) ≤ guard.rate limits := by
  intro hits
  have hkept := @kept K _ _ _ _ (fun _ => guard.rate limits) (guard.key ip)
    (fun _ => limits.window) hrate _
    (oneKey_filter (calls_sorted limits hsorted (.new limits)) (guard.key ip))
  have hnew : guard.limiter (Gate.new limits) = .new := by cases guard <;> rfl
  rw [← filter_answers, allowedTimes_filter, ← hnew, answers_guard limits hrate,
    ← hits_eq] at hkept
  exact hkept.exact

/-- **And none refuses without reason.** -/
theorem full_of_limited {guard : Guard} (hsorted : (rs.map guard.now).Pairwise (· ≤ ·))
    {pre post : List (HttpRequest K × Verdict)} {r : HttpRequest K} {retry : ℤ}
    (hlog : (Gate.new limits).verdicts limits rs = pre ++ (r, .limited guard retry) :: post) :
    guard.rate limits
      ≤ (inside limits.window (guard.now r) (guard.hits (clientIp r) pre) : ℤ) := by
  have hstop : (Verdict.limited guard retry).stoppedBy guard = true := decide_eq_true rfl
  have hmem : (r, .limited guard retry) ∈ (Gate.new limits).verdicts limits rs := by
    rw [hlog]
    simp
  obtain ⟨hasked, hrate⟩ := stopped_of_mem limits hmem hstop
  have hlimit : ∀ key, 1 ≤ (fun _ : GoString => guard.rate limits) key := fun _ => hrate
  have hanswers := answers_guard limits hrate (.new limits) rs
  have hnew : guard.limiter (Gate.new limits) = .new := by cases guard <;> rfl
  have hcut : ((Gate.new limits).verdicts limits rs).filter guard.asked
      = pre.filter guard.asked ++ (r, .limited guard retry) :: post.filter guard.asked := by
    rw [hlog, List.filter_append, List.filter_cons_of_pos hasked]
  have hanswer : (Verdict.limited guard retry).answer guard = some (false, retry) := if_pos rfl
  have hcalls := calls_sorted limits hsorted (.new limits)
  conv at hanswers => rhs; rw [hcut, List.map_append, List.map_cons, hanswer]
  rw [hnew] at hanswers
  have hfull := full_of_refused hlimit hcalls hanswers
  rw [call_key, call_time, ← hits_eq] at hfull
  exact hfull

/-- **No limiter raises.** -/
theorem not_raised (hsorted : ∀ guard : Guard, (rs.map guard.now).Pairwise (· ≤ ·)) :
    ∀ e ∈ (Gate.new limits).verdicts limits rs, ∀ guard, e.2 ≠ .raised guard := by
  intro e he guard hraised
  have hstop : e.2.stoppedBy guard = true := by
    rw [hraised]
    exact decide_eq_true rfl
  obtain ⟨hasked, hrate⟩ := stopped_of_mem limits he hstop
  have hnew : guard.limiter (Gate.new limits) = .new := by cases guard <;> rfl
  have hanswers := answers_guard limits hrate (.new limits) rs
  rw [hnew] at hanswers
  have hsome := @answers_ne_none K _ _ _ _ (fun _ => guard.rate limits) (fun _ => limits.window) _
    (fun _ => hrate) (calls_sorted limits (hsorted guard) (.new limits))
  rw [hanswers] at hsome
  refine hsome _ (List.mem_map_of_mem (List.mem_filter.mpr ⟨he, hasked⟩)) ?_
  rw [hraised]
  exact if_pos rfl

omit [IsStrictOrderedRing K] in
/-- **No day has more lookups than the cap.** -/
theorem lookups_le (hcap : 0 < limits.riotDailyCap) {pre seg post : List (HttpRequest K × Verdict)}
    {d : ℤ} (hlog : (Gate.new limits).verdicts limits rs = pre ++ seg ++ post)
    (hday : ∀ e ∈ seg, reachesCap e → e.1.day = d) :
    (lookups seg : ℤ) ≤ limits.riotDailyCap := by
  have hcount := counted_verdicts limits hcap rs
  rw [hlog] at hcount
  rw [← allowedIn_capLog]
  refine hcount.bound (capLog pre) (capLog seg) (capLog post) d ?_ (day_of_mem_capLog hday)
  unfold capLog
  rw [List.filter_append, List.filter_append, List.map_append, List.map_append]

/-- **What the middleware lets through.** For requests at times that do not
go back, and limits of which any may be disabled: no limiter raises; of the
requests of one client that pass a limiter, a window that ends with one has
`rate` at most, and so of those that are forwarded; a stretch of requests
with its lookups on one day has no more of them forwarded than the daily
cap; a request is refused with 429 only where the client has `rate` hits in
the window, and with 503 only where the cap's number of lookups has been
forwarded since the day has changed. A request that a later check refuses
still is a hit at those before. -/
theorem gate_budgets (limits : Limits K) (rs : List (HttpRequest K))
    (hsorted : ∀ guard : Guard, (rs.map guard.now).Pairwise (· ≤ ·)) :
    let log := (Gate.new limits).verdicts limits rs
    log.map Prod.fst = rs ∧ (∀ e ∈ log, ∀ guard, e.2 ≠ .raised guard) ∧
      (∀ guard : Guard, 0 < guard.rate limits → ∀ ip, ∀ t ∈ guard.hits ip log,
        (inside limits.window t (guard.hits ip log) : ℤ) ≤ guard.rate limits) ∧
      (0 < limits.riotDailyCap → ∀ pre seg post d, log = pre ++ seg ++ post →
        (∀ e ∈ seg, reachesCap e → e.1.day = d) → (lookups seg : ℤ) ≤ limits.riotDailyCap) ∧
      (∀ guard pre r retry post, log = pre ++ (r, .limited guard retry) :: post →
        guard.rate limits
          ≤ (inside limits.window (guard.now r) (guard.hits (clientIp r) pre) : ℤ)) ∧
      ∀ pre r post, log = pre ++ (r, .capped) :: post →
        ∃ old seg, pre = old ++ seg ∧ (∀ e ∈ seg, reachesCap e → e.1.day = r.day) ∧
          (lookups seg : ℤ) = limits.riotDailyCap := by
  intro log
  exact ⟨map_fst_verdicts limits _ rs, not_raised hsorted,
    fun guard hrate ip => inside_hits_le hrate (hsorted guard) ip,
    fun hcap pre seg post d hlog hday => lookups_le hcap hlog hday,
    fun guard pre r retry post hlog => full_of_limited (hsorted guard) hlog,
    fun pre r post hlog => used_of_capped limits hlog⟩

/-- Two lookups of one client within a minute, and one of another. -/
theorem gate_budgets_minute :
    let limits : Limits ℚ := ⟨2, 1, 5, 60⟩
    let log := (Gate.new limits).verdicts limits
      [⟨ascii "/player/a#NA1", [], some (ascii "10.0.0.1"), 0, 0, 5⟩,
        ⟨ascii "/player/b#NA1", [], some (ascii "10.0.0.1"), 30, 30, 5⟩,
        ⟨ascii "/player/c#NA1", [], some (ascii "10.0.0.2"), 40, 40, 5⟩]
    ∀ t ∈ Guard.hits .player (ascii "10.0.0.1") log,
      (inside 60 t (Guard.hits .player (ascii "10.0.0.1") log) : ℤ) ≤ 1 :=
  (gate_budgets (⟨2, 1, 5, 60⟩ : Limits ℚ)
    [⟨ascii "/player/a#NA1", [], some (ascii "10.0.0.1"), 0, 0, 5⟩,
      ⟨ascii "/player/b#NA1", [], some (ascii "10.0.0.1"), 30, 30, 5⟩,
      ⟨ascii "/player/c#NA1", [], some (ascii "10.0.0.2"), 40, 40, 5⟩]
    (by intro guard; cases guard <;> norm_num [Guard.now])).2.2.1 .player (by decide) _

/-! ## The headers -/

theorem setdefault_extends (headers : List (GoString × GoString)) (name value : GoString) :
    headers <+: setdefault headers name value := by
  unfold setdefault
  split_ifs
  · exact List.prefix_rfl
  · exact List.prefix_append ..

theorem mem_setdefault (headers : List (GoString × GoString)) (name value : GoString) :
    name ∈ (setdefault headers name value).map Prod.fst := by
  unfold setdefault
  split_ifs with h
  · exact h
  · simp

/-- Defaults leave what is there and are all set. -/
theorem foldl_setdefault (defaults headers : List (GoString × GoString)) :
    headers <+: defaults.foldl (fun headers p => setdefault headers p.1 p.2) headers ∧
      ∀ p ∈ defaults,
        p.1 ∈ (defaults.foldl (fun headers p => setdefault headers p.1 p.2) headers).map
          Prod.fst := by
  induction defaults generalizing headers with
  | nil => exact ⟨List.prefix_rfl, fun _ h => absurd h List.not_mem_nil⟩
  | cons q defaults ih =>
    obtain ⟨hfront, hmem⟩ := ih (setdefault headers q.1 q.2)
    refine ⟨(setdefault_extends headers q.1 q.2).trans hfront, fun p hp => ?_⟩
    rcases List.mem_cons.mp hp with rfl | hp
    · exact (hfront.map Prod.fst).subset (mem_setdefault headers p.1 p.2)
    · exact hmem p hp

omit [Field K] [LinearOrder K] [IsStrictOrderedRing K] [FloorRing K] in
/-- **The security headers** are on every response of a handler, which keeps
its own, and on no refusal. -/
theorem respond_headers {β : Type} (callNext : HttpRequest K → HttpResponse β) (r : HttpRequest K)
    (v : Verdict) {response : HttpResponse β} (h : respond callNext r v = some response) :
    if v = .forwarded then
      (callNext r).headers <+: response.headers ∧
        ∀ p ∈ securityHeaders, p.1 ∈ response.headers.map Prod.fst
    else ∀ p ∈ securityHeaders, p.1 ∉ response.headers.map Prod.fst := by
  cases v with
  | limited guard retry =>
    obtain rfl := Option.some.inj h
    rw [if_neg (by simp)]
    simp only [List.map_cons, List.map_nil, List.mem_singleton]
    decide
  | raised guard => cases h
  | capped =>
    obtain rfl := Option.some.inj h
    simp
  | forwarded =>
    obtain rfl := Option.some.inj h
    rw [if_pos rfl]
    exact foldl_setdefault securityHeaders (callNext r).headers

end Api

end TftAnalytics

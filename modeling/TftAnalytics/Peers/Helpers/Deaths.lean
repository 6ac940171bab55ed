import TftAnalytics.Common.Positions
import TftAnalytics.Peers.Helpers.Moves
/-!
# Peers — what a run shows

Along a run every transition into `dead` has been called for or will be,
and a member that is not dead any more was brought back by a merge, not
after its heartbeat. So it can go into `dead` again only `deadAfter` later.
-/

namespace TftAnalytics

namespace Peers

open Gossip

/-- **Between two transitions into `dead`** a merge has brought the member
back, and it has been silent for `deadAfter` since. -/
def DeathsApart (τ : List TraceEntry) : Prop :=
  ∀ (a : GoString) (i j : ℕ) (s s' : Status) (c c' : Cause) (t t' : Time), i < j →
    τ[i]? = some (.changed a s .dead c t) → τ[j]? = some (.changed a s' .dead c' t') →
    Between (fun e => e.death? ≠ some a) τ i j →
    ∃ k u, i < k ∧ k < j ∧ τ[k]? = some (.changed a .dead .alive .merge u) ∧
      t ≤ u ∧ u + deadAfter ≤ t'

/-! ## Runs -/

namespace Member

variable {σ Op : Type} {H : Host σ Op} {m : Member σ} {τ : List TraceEntry}

theorem trace_concat (H : Host σ Op) (m : Member σ) (evs : List (MemberEvent Op))
    (ev : MemberEvent Op) :
    m.trace H (evs ++ [ev]) = m.trace H evs ++ (m.run H evs).entries H ev := by
  induction evs generalizing m with
  | nil => simp [trace, run]
  | cons ev' evs ih =>
    rw [List.cons_append, trace, ih, trace, List.append_assoc]
    rfl

/-- **What ties a node to what its run has shown.** -/
structure Shown (m : Member σ) (τ : List TraceEntry) : Prop where
  past : ∀ a, a ≠ m.gossip.self → ∀ s ∈ m.gossip.members.lookup a, s.heartbeatAt ≤ m.clock
  stamps : ∀ e ∈ τ, e.now ≤ m.clock
  matched : (calls τ ++ m.pending).Perm (transitions τ)
  others : ∀ e ∈ τ, e.addr ≠ m.gossip.self
  known : ∀ a s s' c t, .changed a s s' c t ∈ τ → ∃ ms, ms ∈ m.gossip.members.lookup a
  pending : m.gossip.self ∉ m.pending
  own : (m.gossip.members.lookup m.gossip.self).map MemberState.status = some .alive
  fresh : ∀ a c t, .changed a .dead .suspected c t ∉ τ
  back : ∀ (a : GoString) (i : ℕ) (s : Status) (c : Cause) (t : Time),
    τ[i]? = some (.changed a s .dead c t) →
    Between (fun e => e.death? ≠ some a) τ i τ.length →
    ∀ ms ∈ m.gossip.members.lookup a, ms.status ≠ .dead →
      ∃ k u, i < k ∧ τ[k]? = some (.changed a .dead .alive .merge u) ∧
        t ≤ u ∧ u ≤ ms.heartbeatAt
  apart : DeathsApart τ

theorem shown_start (self : GoString) (peersEnv : List GoString) (host : σ) :
    (start self peersEnv host).Shown [] where
  past := by
    intro a _ s hs
    rw [new_fresh hs]
    exact le_rfl
  stamps := by simp
  matched := List.Perm.refl _
  others := by simp
  known := by simp
  pending := by simp [start]
  own := by
    have hself := new_lookup_self self (mainPeers self peersEnv) 0
    exact congrArg (Option.map MemberState.status) hself
  fresh := by simp
  back := by simp
  apart := fun a i j s s' c c' t t' _ h => by simp at h

/-- **A change that is shown is a turn**, and never of the node itself. -/
theorem Shown.turn_of_mem (h : m.Shown τ) {cause : Cause} {g' : GossipNode}
    (hturns : Turns cause m.clock m.gossip g') {a : GoString} {s s' : Status} {c : Cause} {t : Time}
    (hmem : .changed a s s' c t ∈ changes cause m.clock m.gossip g') :
    a ≠ m.gossip.self ∧ t = m.clock ∧ s ≠ s' ∧
      ∃ ms ∈ m.gossip.members.lookup a, ∃ ms' ∈ g'.members.lookup a,
        ms.status = s ∧ ms'.status = s' ∧ Turn m.clock ms ms' cause := by
  obtain ⟨-, ht, hne, ms, hms, ms', hms', hs, hs'⟩ := mem_changes.mp hmem
  have hself : a ≠ m.gossip.self := by
    rintro rfl
    have hown := hturns.own
    rw [Option.mem_def.mp hms, Option.mem_def.mp hms'] at hown
    exact hne (hs.symm.trans ((Option.some.inj hown).symm.trans hs'))
  refine ⟨hself, ht, hne, ms, hms, ms', hms', hs, hs', ?_⟩
  obtain ⟨ms'', hms'', -, -, hturn⟩ := hturns.turn a hself ms hms (h.past a hself ms hms)
  obtain rfl := Option.some.inj (hms'.symm.trans hms'')
  exact hturn

/-- Behind a transition into `dead`, a member that is not dead was brought
back by a merge, and not after its heartbeat. -/
theorem Shown.back_turns (h : m.Shown τ) {cause : Cause} {g' : GossipNode}
    (hturns : Turns cause m.clock m.gossip g') {a : GoString} {i : ℕ} {s : Status} {c : Cause}
    {t : Time} (hi : (τ ++ changes cause m.clock m.gossip g')[i]? = some (.changed a s .dead c t))
    (hlater : Between (fun e => e.death? ≠ some a) (τ ++ changes cause m.clock m.gossip g') i
      (τ ++ changes cause m.clock m.gossip g').length)
    {ms' : MemberState} (hms' : ms' ∈ g'.members.lookup a) (hlive : ms'.status ≠ .dead) :
    ∃ k u, i < k ∧ (τ ++ changes cause m.clock m.gossip g')[k]?
        = some (.changed a .dead .alive .merge u) ∧ t ≤ u ∧ u ≤ ms'.heartbeatAt := by
  rcases getElem?_append_cases hi with hold | ⟨-, hnew⟩
  · have hmem := List.mem_of_getElem? hold
    have hself : a ≠ m.gossip.self := h.others _ hmem
    obtain ⟨ms, hms⟩ := h.known a _ _ _ _ hmem
    obtain ⟨ms'', hms'', hbeat, -, hturn⟩ := hturns.turn a hself ms hms (h.past a hself ms hms)
    obtain rfl := Option.some.inj (hms'.symm.trans hms'')
    by_cases hdead : ms.status = .dead
    · -- it comes back in this step
      have hrevived : ms'.status = .alive ∧ ms'.heartbeatAt = m.clock ∧ cause = .merge := by
        rcases hturn with hsame | ⟨halive, -⟩ | ⟨hnot, -, -⟩ | ⟨halive, hnow⟩
        · exact absurd (hsame.trans hdead) hlive
        · rw [hdead] at halive
          cases halive
        · exact absurd hdead hnot
        · exact ⟨halive, hnow, rfl⟩
      obtain ⟨halive, hnow, rfl⟩ := hrevived
      have hchange : .changed a .dead .alive .merge m.clock
          ∈ changes .merge m.clock m.gossip g' :=
        mem_changes.mpr ⟨rfl, rfl, by simp, ms, hms, ms', hms', hdead, halive⟩
      obtain ⟨k, hk⟩ := List.mem_iff_getElem?.mp hchange
      have hlt := lt_of_getElem?_eq_some hold
      refine ⟨τ.length + k, m.clock, by omega, ?_, h.stamps _ hmem, hnow.ge⟩
      rw [List.getElem?_append_right (by omega), Nat.add_sub_cancel_left]
      exact hk
    · have hbefore : Between (fun e => e.death? ≠ some a) τ i τ.length := by
        refine (between_append le_rfl).mp fun k e hik hkl hk => hlater k e hik ?_ hk
        exact hkl.trans_le (by simp)
      obtain ⟨k, u, hik, hk, htu, hu⟩ := h.back a i s c t hold hbefore ms hms hdead
      exact ⟨k, u, hik, getElem?_append_of_eq_some hk _, htu, hu.trans hbeat⟩
  · obtain ⟨-, -, -, -, -, ms'', hms'', -, hdead, -⟩ :=
      h.turn_of_mem hturns (List.mem_of_getElem? hnew)
    obtain rfl := Option.some.inj (hms'.symm.trans hms'')
    exact absurd hdead hlive

/-- **A member that goes into `dead` again** has been brought back, and has
been silent since. -/
theorem Shown.apart_turns (h : m.Shown τ) {cause : Cause} {g' : GossipNode}
    (hturns : Turns cause m.clock m.gossip g') :
    DeathsApart (τ ++ changes cause m.clock m.gossip g') := by
  intro a i j s s' c c' t t' hij hi hj hbetween
  rcases getElem?_append_cases hj with hold | ⟨hjl, hnew⟩
  · have hjl := lt_of_getElem?_eq_some hold
    rw [List.getElem?_append_left (by omega)] at hi
    obtain ⟨k, u, hik, hkj, hk, hbounds⟩ := h.apart a i j s s' c c' t t' hij hi hold
      ((between_append hjl.le).mp hbetween)
    exact ⟨k, u, hik, hkj, getElem?_append_of_eq_some hk _, hbounds⟩
  · obtain ⟨-, rfl, hne, ms, hms, ms', -, hs, hs', hturn⟩ :=
      h.turn_of_mem hturns (List.mem_of_getElem? hnew)
    have hsilent : deadAfter ≤ m.clock - ms.heartbeatAt := by
      rcases hturn with hsame | ⟨-, hsuspected⟩ | ⟨-, -, hage⟩ | ⟨halive, -⟩
      · exact absurd (hs.symm.trans (hsame.symm.trans hs')) hne
      · rw [hs'] at hsuspected
        cases hsuspected
      · exact hage
      · rw [hs'] at halive
        cases halive
    rcases getElem?_append_cases hi with hold | ⟨hil, hnew'⟩
    · have hbefore : Between (fun e => e.death? ≠ some a) τ i τ.length :=
        (between_append le_rfl).mp fun k e hik hkl hk => hbetween k e hik (hkl.trans_le hjl) hk
      obtain ⟨k, u, hik, hk, htu, hu⟩ := h.back a i s c t hold hbefore ms hms
        (by rw [hs]; exact hne)
      have hkl := lt_of_getElem?_eq_some hk
      refine ⟨k, u, hik, by omega, getElem?_append_of_eq_some hk _, htu, ?_⟩
      exact (Int.add_le_add_right hu deadAfter).trans (Int.add_le_of_le_sub_left hsilent)
    · -- a step shows one change of a member at most
      have hlt : i - τ.length < j - τ.length := by omega
      exact (addr_ne_of_changes hnew' hnew hlt rfl).elim

/-- **A tick or a merge**: what is to be called are the members that went
into `dead`. -/
theorem Shown.turns (h : m.Shown τ) {cause : Cause} {g' : GossipNode} {pending : List GoString}
    {deaths : List GoString} (hturns : Turns cause m.clock m.gossip g')
    (hcalls : (calls τ ++ pending).Perm
      (transitions τ ++ transitions (changes cause m.clock m.gossip g')))
    (hpending : m.gossip.self ∉ pending) :
    Shown { m with gossip := g', pending := pending, deaths := deaths }
      (τ ++ changes cause m.clock m.gossip g') where
  past := by
    intro a ha ms' hms'
    rw [hturns.self_eq] at ha
    rcases hms : m.gossip.members.lookup a with - | ms
    · exact hturns.learned a ha hms ms' hms'
    · obtain ⟨ms'', hms'', -, hpast, -⟩ := hturns.turn a ha ms hms (h.past a ha ms hms)
      obtain rfl := Option.some.inj (hms'.symm.trans hms'')
      exact hpast
  stamps := by
    intro e he
    rcases List.mem_append.mp he with he | he
    · exact h.stamps e he
    · obtain ⟨b, s, s', rfl⟩ := changed_of_mem he
      exact le_rfl
  matched := by
    have hquiet : calls (τ ++ changes cause m.clock m.gossip g') = calls τ := by
      rw [calls, List.filterMap_append]
      exact (congrArg _ calls_changes).trans (List.append_nil _)
    have hsplit : transitions (τ ++ changes cause m.clock m.gossip g')
        = transitions τ ++ transitions (changes cause m.clock m.gossip g') :=
      List.filterMap_append
    rw [hquiet, hsplit]
    exact hcalls
  others := by
    intro e he
    rw [hturns.self_eq]
    rcases List.mem_append.mp he with he | he
    · exact h.others e he
    · obtain ⟨b, s, s', rfl⟩ := changed_of_mem he
      exact (h.turn_of_mem hturns he).1
  known := by
    intro a s s' c t hmem
    rcases List.mem_append.mp hmem with hmem | hmem
    · obtain ⟨ms, hms⟩ := h.known a s s' c t hmem
      have hself : a ≠ m.gossip.self := h.others _ hmem
      obtain ⟨ms', hms', -⟩ := hturns.turn a hself ms hms (h.past a hself ms hms)
      exact ⟨ms', hms'⟩
    · obtain ⟨-, -, -, -, -, ms', hms', -⟩ := h.turn_of_mem hturns hmem
      exact ⟨ms', hms'⟩
  pending := by
    rw [hturns.self_eq]
    exact hpending
  own := by
    change (g'.members.lookup g'.self).map MemberState.status = some .alive
    rw [hturns.self_eq]
    exact hturns.own.trans h.own
  fresh := by
    intro a c t hmem
    rcases List.mem_append.mp hmem with hmem | hmem
    · exact h.fresh a c t hmem
    · obtain ⟨-, -, hne, ms, -, ms', -, hs, hs', hturn⟩ := h.turn_of_mem hturns hmem
      -- a member comes back to life by a merge, and then it is alive
      rcases hturn with hsame | ⟨halive, -⟩ | ⟨hnot, -, -⟩ | ⟨halive, -⟩
      · exact hne (hs.symm.trans (hsame.symm.trans hs'))
      · rw [hs] at halive
        cases halive
      · exact hnot hs
      · rw [hs'] at halive
        cases halive
  back := fun _ _ _ _ _ hi hlater _ hms' hlive => h.back_turns hturns hi hlater hms' hlive
  apart := h.apart_turns hturns

/-- A change that is shown was shown before the call. -/
theorem getElem?_of_append_called {addr a : GoString} {now t : Time} {s s' : Status} {c : Cause}
    {k : ℕ} (hk : (τ ++ [.called addr now])[k]? = some (.changed a s s' c t)) :
    τ[k]? = some (.changed a s s' c t) := by
  rcases getElem?_append_cases hk with hold | ⟨-, hnew⟩
  · exact hold
  · exact absurd (List.mem_singleton.mp (List.mem_of_getElem? hnew)) (by simp)

theorem mem_of_append_called {addr a : GoString} {now t : Time} {s s' : Status} {c : Cause}
    (h : .changed a s s' c t ∈ τ ++ [.called addr now]) : .changed a s s' c t ∈ τ := by
  obtain ⟨k, hk⟩ := List.mem_iff_getElem?.mp h
  exact List.mem_of_getElem? (getElem?_of_append_called hk)

/-- **A call.** -/
theorem Shown.callback (h : m.Shown τ) {addr : GoString} {rest : List GoString}
    (hpending : m.pending = addr :: rest) (host : σ) :
    Shown { m with host := host, pending := rest } (τ ++ [.called addr m.clock]) := by
  have hself : m.gossip.self ∉ addr :: rest := by
    rw [← hpending]
    exact h.pending
  exact {
    past := h.past
    stamps := by
      intro e he
      rcases List.mem_append.mp he with he | he
      · exact h.stamps e he
      · obtain rfl := List.mem_singleton.mp he
        exact le_rfl
    matched := by
      have hmatched := h.matched
      rw [hpending] at hmatched
      have hcalls : calls (τ ++ [.called addr m.clock]) = calls τ ++ [addr] := by
        rw [calls, List.filterMap_append]
        rfl
      have hsame : transitions (τ ++ [.called addr m.clock]) = transitions τ := by
        rw [transitions, List.filterMap_append]
        exact List.append_nil _
      rw [hcalls, hsame, List.append_assoc]
      exact hmatched
    others := by
      intro e he
      rcases List.mem_append.mp he with he | he
      · exact h.others e he
      · obtain rfl := List.mem_singleton.mp he
        exact fun heq => hself (heq ▸ List.mem_cons_self)
    known := fun a s s' c t hchange => h.known a s s' c t (mem_of_append_called hchange)
    pending := fun hmem => hself (List.mem_cons_of_mem _ hmem)
    own := h.own
    fresh := fun a c t hchange => h.fresh a c t (mem_of_append_called hchange)
    back := by
      intro a i s c t hi hlater ms hms hlive
      have hbefore : Between (fun e => e.death? ≠ some a) τ i τ.length :=
        (between_append le_rfl).mp fun k e hik hkl hk => hlater k e hik (hkl.trans_le (by simp)) hk
      obtain ⟨k, u, hik, hk, hbounds⟩ :=
        h.back a i s c t (getElem?_of_append_called hi) hbefore ms hms hlive
      exact ⟨k, u, hik, getElem?_append_of_eq_some hk _, hbounds⟩
    apart := by
      intro a i j s s' c c' t t' hij hi hj hbetween
      have hj' := getElem?_of_append_called hj
      obtain ⟨k, u, hik, hkj, hk, hbounds⟩ := h.apart a i j s s' c c' t t' hij
        (getElem?_of_append_called hi) hj'
        ((between_append (lt_of_getElem?_eq_some hj').le).mp hbetween)
      exact ⟨k, u, hik, hkj, getElem?_append_of_eq_some hk _, hbounds⟩ }

/-- **One event.** -/
theorem Shown.moves (h : m.Shown τ) {ev : MemberEvent Op} {m' : Member σ} {es : List TraceEntry}
    (hmoves : Moves H m ev m' es) : m'.Shown (τ ++ es) := by
  cases hmoves with
  | idle => rwa [List.append_nil]
  | advance d =>
    have hlater : m.clock ≤ m.clock + d := Int.le_add_of_nonneg_right (Int.natCast_nonneg d)
    rw [List.append_nil]
    exact { h with
      past := fun a ha s hs => (h.past a ha s hs).trans hlater
      stamps := fun e he => (h.stamps e he).trans hlater }
  | tick dead hpending hdead =>
    refine h.turns (turns_tick m.gossip m.clock) ?_ ?_
    -- all calls were made, so the new ones are the deaths of this tick
    · have hmatched := h.matched
      rw [hpending, List.append_nil] at hmatched
      exact hmatched.append (hdead.trans (newlyDead_perm m.gossip m.clock))
    · exact fun hself => (mem_newlyDead.mp (hdead.mem_iff.mp hself)).1 rfl
  | callback addr rest hpending => exact h.callback hpending _
  | merge incoming =>
    refine h.turns (turns_merge m.gossip m.clock incoming) ?_ h.pending
    rw [transitions_merge, List.append_nil]
    exact h.matched
  | serve op =>
    rw [List.append_nil]
    exact { h with }

/-- **Along every run.** -/
theorem Shown.run (h : m.Shown []) (evs : List (MemberEvent Op)) :
    (m.run H evs).Shown (m.trace H evs) := by
  induction evs using List.reverseRecOn with
  | nil => exact h
  | append_singleton evs ev ih =>
    have hrun : m.run H (evs ++ [ev]) = (m.run H evs).step H ev := by
      simp [Member.run, List.foldl_append]
    rw [trace_concat, hrun]
    exact ih.moves (moves_step H _ ev)

end Member

end Peers

end TftAnalytics

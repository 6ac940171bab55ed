import TftAnalytics.Broker.Model.Broker
import TftAnalytics.Peers.Helpers.Deaths
/-!
# Peers — once per death

Each transition into `dead` has its call of `onDead`, and a member goes
into `dead` again only when a merge has brought it back and it has been
silent for `deadAfter` since. The calls are made outside the lock, one by
one. Where they are made at once, they are as far apart as the
transitions; but a merge may bring a member back before its call is made,
and then the times of the calls say less.
-/

namespace TftAnalytics

namespace Peers

open Gossip

/-- **Between two calls of `onDead`** for a member a merge has brought it
back, and the calls are `deadAfter` apart. -/
def CallsApart (τ : List TraceEntry) : Prop :=
  ∀ (a : GoString) (i j : ℕ) (t t' : Time), i < j →
    τ[i]? = some (.called a t) → τ[j]? = some (.called a t') →
    Between (fun e => e.call? ≠ some a) τ i j →
    (∃ k u, i < k ∧ k < j ∧ τ[k]? = some (.changed a .dead .alive .merge u)) ∧
      t + deadAfter ≤ t'

/-! ## Calls that are made at once -/

/-- Time passes, or news comes in. -/
def MemberEvent.Intrudes {Op : Type} : MemberEvent Op → Prop
  | .advance _ | .merge _ => True
  | .tick _ | .callback | .serve _ => False

/-- Nothing of the calls, the deaths and the returns of `a`. -/
def TraceEntry.QuietOn (a : GoString) (e : TraceEntry) : Prop :=
  e.call? ≠ some a ∧ e.death? ≠ some a ∧ ∀ u, e ≠ .changed a .dead .alive .merge u

namespace Member

variable {σ Op : Type} {H : Host σ Op} {m : Member σ} {τ : List TraceEntry}

/-- **Calls are made at once**: no time passes and no news comes in while
one is to come. -/
def Prompt (H : Host σ Op) (m : Member σ) : List (MemberEvent Op) → Prop
  | [] => True
  | ev :: evs => (m.pending = [] ∨ ¬ ev.Intrudes) ∧ (m.step H ev).Prompt H evs

theorem prompt_concat (H : Host σ Op) (m : Member σ) (evs : List (MemberEvent Op))
    (ev : MemberEvent Op) :
    m.Prompt H (evs ++ [ev]) ↔ m.Prompt H evs ∧ ((m.run H evs).pending = [] ∨ ¬ ev.Intrudes) := by
  induction evs generalizing m with
  | nil => simp [Prompt, run]
  | cons ev' evs ih =>
    rw [List.cons_append, Prompt, ih, Prompt, and_assoc]
    rfl

/-- **What ties calls to transitions**: a call is made at the time of its
transition, and a transition has its call before the next. -/
structure Linked (m : Member σ) (τ : List TraceEntry) : Prop where
  called : ∀ (a : GoString) (i : ℕ) (t : Time), τ[i]? = some (.called a t) →
    ∃ k s c, k < i ∧ τ[k]? = some (.changed a s .dead c t) ∧
      Between (TraceEntry.QuietOn a) τ k i
  due : ∀ a ∈ m.pending, ∃ k s c, τ[k]? = some (.changed a s .dead c m.clock) ∧
    Between (TraceEntry.QuietOn a) τ k τ.length
  nodup : m.pending.Nodup
  answered : ∀ (a : GoString) (k : ℕ) (s : Status) (c : Cause) (t : Time),
    τ[k]? = some (.changed a s .dead c t) →
    a ∈ m.pending ∧ Between (fun e => e.death? ≠ some a) τ k τ.length ∨
      ∃ i u, k < i ∧ τ[i]? = some (.called a u) ∧ Between (fun e => e.death? ≠ some a) τ k i

theorem linked_start (self : GoString) (peersEnv : List GoString) (host : σ) :
    (start self peersEnv host).Linked [] where
  called := by simp
  due := by simp [start]
  nodup := List.nodup_nil
  answered := by simp

/-- A call is linked to its transition, whatever is shown later. -/
theorem Linked.called_append (h : m.Linked τ) (τ' : List TraceEntry) {a : GoString} {i : ℕ}
    {t : Time} (hi : τ[i]? = some (.called a t)) :
    ∃ k s c, k < i ∧ (τ ++ τ')[k]? = some (.changed a s .dead c t) ∧
      Between (TraceEntry.QuietOn a) (τ ++ τ') k i := by
  obtain ⟨k, s, c, hki, hk, hquiet⟩ := h.called a i t hi
  exact ⟨k, s, c, hki, getElem?_append_of_eq_some hk _,
    (between_append (lt_of_getElem?_eq_some hi).le).mpr hquiet⟩

/-- And so is a transition to the call that answers it. -/
theorem answered_append (τ' : List TraceEntry) {a : GoString} {k : ℕ}
    (h : ∃ i u, k < i ∧ τ[i]? = some (.called a u) ∧ Between (fun e => e.death? ≠ some a) τ k i) :
    ∃ i u, k < i ∧ (τ ++ τ')[i]? = some (.called a u) ∧
      Between (fun e => e.death? ≠ some a) (τ ++ τ') k i := by
  obtain ⟨i, u, hki, hi, hbetween⟩ := h
  exact ⟨i, u, hki, getElem?_append_of_eq_some hi _,
    (between_append (lt_of_getElem?_eq_some hi).le).mpr hbetween⟩

/-- **A tick or a merge**, when nothing is to be called. -/
theorem Linked.turns (h : m.Linked τ) (hpending : m.pending = []) {cause : Cause} {g' : GossipNode}
    {pending deaths : List GoString} (hnodup : pending.Nodup)
    (hdue : ∀ a, a ∈ pending ↔ a ∈ transitions (changes cause m.clock m.gossip g'))
    (hcause : cause = .tick ∨ pending = []) :
    Linked { m with gossip := g', pending := pending, deaths := deaths }
      (τ ++ changes cause m.clock m.gossip g') where
  called := by
    intro a i t hi
    rcases getElem?_append_cases hi with hold | ⟨-, hnew⟩
    · exact h.called_append _ hold
    · obtain ⟨b, s, s', hchange⟩ := changed_of_mem (List.mem_of_getElem? hnew)
      cases hchange
  due := by
    intro a ha
    obtain ⟨e, he, hdeath⟩ := List.mem_filterMap.mp ((hdue a).mp ha)
    obtain ⟨s, c, t, rfl⟩ := TraceEntry.eq_of_death? hdeath
    obtain rfl : t = m.clock := (mem_changes.mp he).2.1
    obtain ⟨n, hn⟩ := List.mem_iff_getElem?.mp he
    refine ⟨τ.length + n, s, c, ?_, fun k e hnk _ hk => ?_⟩
    · rw [List.getElem?_append_right (by omega), Nat.add_sub_cancel_left]
      exact hn
    · rcases getElem?_append_cases hk with hold | ⟨hlen, hnew⟩
      · have := lt_of_getElem?_eq_some hold
        omega
      · have hlt : n < k - τ.length := by omega
        -- behind it the step shows other members only
        have hne : a ≠ e.addr := addr_ne_of_changes hn hnew hlt
        obtain ⟨b, s, s', rfl⟩ := changed_of_mem (List.mem_of_getElem? hnew)
        refine ⟨(Option.some_ne_none a).symm,
          fun heq => hne (TraceEntry.addr_of_death? heq).symm, ?_⟩
        intro u heq
        rcases hcause with rfl | rfl
        · cases heq
        · cases ha
  nodup := hnodup
  answered := by
    intro a k s c t hk
    rcases getElem?_append_cases hk with hold | ⟨hlen, hnew⟩
    · rcases h.answered a k s c t hold with ⟨hmem, -⟩ | hanswered
      · rw [hpending] at hmem
        exact absurd hmem List.not_mem_nil
      · exact .inr (answered_append _ hanswered)
    · refine .inl ⟨(hdue a).mpr (List.mem_filterMap.mpr ⟨_, List.mem_of_getElem? hnew, rfl⟩), ?_⟩
      intro k' e hkk' _ hk' hdeath
      rcases getElem?_append_cases hk' with hold' | ⟨hlen', hnew'⟩
      · have := lt_of_getElem?_eq_some hold'
        omega
      · have hlt : k - τ.length < k' - τ.length := by omega
        exact addr_ne_of_changes hnew hnew' hlt (TraceEntry.addr_of_death? hdeath).symm

/-- **A call.** -/
theorem Linked.callback (h : m.Linked τ) {addr : GoString} {rest : List GoString}
    (hpending : m.pending = addr :: rest) (host : σ) :
    Linked { m with host := host, pending := rest } (τ ++ [.called addr m.clock]) := by
  -- a member is on the list of a tick once
  have hnodup := h.nodup
  rw [hpending, List.nodup_cons] at hnodup
  have hlen : (τ ++ [TraceEntry.called addr m.clock]).length = τ.length + 1 :=
    List.length_append
  exact {
    called := by
      intro a i t hi
      rcases getElem?_append_cases hi with hold | ⟨hlen, hnew⟩
      · exact h.called_append _ hold
      · -- the call that was due
        obtain ⟨rfl, rfl⟩ : a = addr ∧ t = m.clock := by
          have hcall := List.mem_singleton.mp (List.mem_of_getElem? hnew)
          exact ⟨(TraceEntry.called.inj hcall).1, (TraceEntry.called.inj hcall).2⟩
        obtain rfl : i = τ.length := by
          have := lt_of_getElem?_eq_some hi
          omega
        obtain ⟨k, s, c, hk, hquiet⟩ := h.due a (by rw [hpending]; exact List.mem_cons_self)
        exact ⟨k, s, c, lt_of_getElem?_eq_some hk, getElem?_append_of_eq_some hk _,
          (between_append le_rfl).mpr hquiet⟩
    due := by
      intro a ha
      obtain ⟨k, s, c, hk, hquiet⟩ := h.due a (by rw [hpending]; exact List.mem_cons_of_mem _ ha)
      refine ⟨k, s, c, getElem?_append_of_eq_some hk _, hquiet.append fun e he => ?_⟩
      obtain rfl := List.mem_singleton.mp he
      refine ⟨?_, (Option.some_ne_none a).symm, fun u heq => by cases heq⟩
      intro heq
      obtain rfl := Option.some.inj heq
      exact hnodup.1 ha
    nodup := hnodup.2
    answered := by
      intro a k s c t hk
      have hold := getElem?_of_append_called hk
      rcases h.answered a k s c t hold with ⟨hmem, hbetween⟩ | hanswered
      · rw [hpending] at hmem
        rcases List.mem_cons.mp hmem with rfl | hmem
        · exact .inr ⟨τ.length, m.clock, lt_of_getElem?_eq_some hold, by simp,
            (between_append le_rfl).mpr hbetween⟩
        · refine .inl ⟨hmem, hbetween.append fun e he => ?_⟩
          obtain rfl := List.mem_singleton.mp he
          exact (Option.some_ne_none a).symm
      · exact .inr (answered_append _ hanswered) }

/-- **One event.** -/
theorem Linked.moves (h : m.Linked τ) {ev : MemberEvent Op} {m' : Member σ}
    {es : List TraceEntry} (hmoves : Moves H m ev m' es)
    (hprompt : m.pending = [] ∨ ¬ ev.Intrudes) : m'.Linked (τ ++ es) := by
  cases hmoves with
  | idle => rwa [List.append_nil]
  | advance d =>
    have hpending := hprompt.resolve_right fun hnot => hnot trivial
    rw [List.append_nil]
    refine ⟨h.called, fun a ha => ?_, h.nodup, h.answered⟩
    rw [hpending] at ha
    exact absurd ha List.not_mem_nil
  | tick dead hpending hdead =>
    have hperm := hdead.trans (newlyDead_perm m.gossip m.clock)
    exact h.turns hpending (hperm.nodup_iff.mpr nodup_transitions_changes)
      (fun _ => hperm.mem_iff) (.inl rfl)
  | callback addr rest hpending => exact h.callback hpending _
  | merge incoming =>
    have hpending := hprompt.resolve_right fun hnot => hnot trivial
    refine h.turns hpending h.nodup (fun a => ?_) (.inr hpending)
    rw [hpending, transitions_merge]
  | serve op =>
    rw [List.append_nil]
    exact ⟨h.called, h.due, h.nodup, h.answered⟩

/-- **Along every run** in which calls are made at once. -/
theorem Linked.run (h : m.Linked []) {evs : List (MemberEvent Op)} (hprompt : m.Prompt H evs) :
    (m.run H evs).Linked (m.trace H evs) := by
  induction evs using List.reverseRecOn with
  | nil => exact h
  | append_singleton evs ev ih =>
    have hrun : m.run H (evs ++ [ev]) = (m.run H evs).step H ev := by
      simp [Member.run, List.foldl_append]
    obtain ⟨hbefore, hev⟩ := (prompt_concat H m evs ev).mp hprompt
    rw [trace_concat, hrun]
    exact (ih hbefore).moves (moves_step H _ ev) hev

/-- **Calls that are made at once** are as far apart as the transitions. -/
theorem Linked.callsApart (h : m.Linked τ) (hdeaths : DeathsApart τ) : CallsApart τ := by
  intro a i j t t' hij hi hj hbetween
  obtain ⟨k, s, c, hki, hk, hquiet⟩ := h.called a i t hi
  obtain ⟨k', s', c', hkj', hk', hquiet'⟩ := h.called a j t' hj
  -- the second transition comes after the first call
  have hik' : i < k' := by
    rcases Nat.lt_trichotomy i k' with hlt | rfl | hgt
    · exact hlt
    · rw [hi] at hk'
      cases hk'
    · exact absurd rfl (hquiet' i _ hgt hij hi).1
  have hnone : Between (fun e => e.death? ≠ some a) τ k k' := by
    intro l e hkl hlk' hl hdeath
    rcases Nat.lt_trichotomy l i with hlt | rfl | hgt
    · exact (hquiet l e hkl hlt hl).2.1 hdeath
    · obtain rfl := Option.some.inj (hi.symm.trans hl)
      cases hdeath
    · obtain ⟨s₁, c₁, t₁, rfl⟩ := TraceEntry.eq_of_death? hdeath
      rcases h.answered a l s₁ c₁ t₁ hl with ⟨-, hend⟩ | ⟨i', u, hli', hi', hend⟩
      · exact hend k' _ hlk' (lt_of_getElem?_eq_some hk') hk' rfl
      · -- a call between the two
        rcases Nat.lt_trichotomy i' k' with hlt | rfl | hgt'
        · exact hbetween i' _ (hgt.trans hli') (hlt.trans hkj') hi' rfl
        · rw [hi'] at hk'
          cases hk'
        · exact hend k' _ hlk' hgt' hk' rfl
  obtain ⟨l, u, hkl, hlk', hl, htu, hu⟩ :=
    hdeaths a k k' s s' c c' t t' (hki.trans hik') hk hk' hnone
  have hil : i < l := by
    rcases Nat.lt_trichotomy i l with hlt | rfl | hgt
    · exact hlt
    · rw [hi] at hl
      cases hl
    · exact absurd rfl ((hquiet l _ hkl hgt hl).2.2 u)
  exact ⟨⟨l, u, hil, hlk'.trans hkj', hl⟩, (Int.add_le_add_right htu deadAfter).trans hu⟩

end Member

/-! ## Main results -/

/-- **Once per death**: at every point of every run the calls made and to
come are the transitions into `dead`, and a member that goes into `dead`
again has been brought back by a merge, and silent for `deadAfter` since.
So have its calls, where they are made at once. Nobody goes from `dead` to
`suspected`, and the node itself stays alive. -/
theorem once_per_death {σ Op : Type} (H : Host σ Op) (self : GoString) (peersEnv : List GoString)
    (host : σ) (evs : List (MemberEvent Op)) :
    let m := (Member.start self peersEnv host).run H evs
    let τ := (Member.start self peersEnv host).trace H evs
    (∀ a, (calls τ).count a + m.pending.count a = (transitions τ).count a) ∧
      DeathsApart τ ∧
      ((Member.start self peersEnv host).Prompt H evs → CallsApart τ) ∧
      (∀ a c t, .changed a .dead .suspected c t ∉ τ) ∧
      (m.gossip.members.lookup self).map MemberState.status = some .alive ∧
      self ∉ m.pending ∧ ∀ e ∈ τ, e.addr ≠ self := by
  intro m τ
  have h : m.Shown τ := (Member.shown_start self peersEnv host).run evs
  have hself : m.gossip.self = self := Member.run_gossip_self H _ evs
  refine ⟨fun a => ?_, h.apart, fun hprompt => ?_, h.fresh, ?_, ?_, ?_⟩
  · rw [← List.count_append]
    exact h.matched.count_eq a
  · exact ((Member.linked_start self peersEnv host).run hprompt).callsApart h.apart
  · rw [← hself]
    exact h.own
  · rw [← hself]
    exact h.pending
  · rw [← hself]
    exact h.others

/-- A peer that is brought back, and dies again. -/
def secondDeath (Op : Type) : List (MemberEvent Op) :=
  [.advance 20000000000, .tick [[98]], .callback,
    .merge [{ addr := [98], heartbeatAt := 0, incarnation := 1, status := .alive }],
    .advance 20000000000, .tick [[98]], .callback]

theorem once_per_death_second :
    CallsApart ((Member.start [97] [[98]] (Broker.newBroker [97] (mainPeers [97] [[98]]))).trace
      Broker.host (secondDeath _)) :=
  (once_per_death Broker.host [97] [[98]] _ (secondDeath _)).2.2.1
    ⟨.inl rfl, .inl rfl, .inr id, .inl rfl, .inl rfl, .inl rfl, .inr id, trivial⟩

/-! ## A call that comes late -/

/-- Two peers are declared dead; between their calls a packet brings the
second back, and it is silent for another twenty seconds. -/
def lateCall (Op : Type) : List (MemberEvent Op) :=
  [.advance 20000000000, .tick [[99], [98]], .callback,
    .merge [{ addr := [98], heartbeatAt := 0, incarnation := 1, status := .alive }],
    .advance 20000000000, .callback, .tick [[98]], .callback]

/-- **The calls of a broker are not `deadAfter` apart**: the first call for
the peer is made as late as the second. -/
theorem not_calls_apart : ¬ ∀ (self : GoString) (peersEnv : List GoString)
    (evs : List (MemberEvent GoString)),
    let start := Member.start self peersEnv (Broker.newBroker self (mainPeers self peersEnv))
    (start.run Broker.host evs).pending = [] → CallsApart (start.trace Broker.host evs) := by
  intro h
  have htrace : (Member.start [97] [[98], [99]]
      (Broker.newBroker [97] (mainPeers [97] [[98], [99]]))).trace Broker.host (lateCall _)
        = [.changed [99] .alive .dead .tick 20000000000,
          .changed [98] .alive .dead .tick 20000000000,
          .called [99] 20000000000,
          .changed [98] .dead .alive .merge 20000000000,
          .called [98] 40000000000,
          .changed [98] .alive .dead .tick 40000000000,
          .called [98] 40000000000] := by decide
  have hapart := h [97] [[98], [99]] (lateCall _) (by decide)
  rw [htrace] at hapart
  obtain ⟨-, hlater⟩ := hapart [98] 4 6 40000000000 40000000000 (by omega) rfl rfl (by
    intro k e hik hkj hk
    obtain rfl : k = 5 := by omega
    obtain rfl := Option.some.inj hk
    decide)
  exact absurd hlater (by decide)

end Peers

end TftAnalytics

import TftAnalytics.Peers.Model.Trace
import TftAnalytics.Gossip.Helpers.Node
/-!
# Peers — what a tick or a merge shows

A step shows one change of a member at most. What the change can be is said
once for ticks and once for merges, and what is proved of a run rests on
that alone.
-/

namespace TftAnalytics

namespace Peers

open Gossip

variable {now : Time} {g g' : GossipNode} {a : GoString} {cause : Cause}

/-- A transition into `dead` is a change. -/
theorem TraceEntry.eq_of_death? {e : TraceEntry} (h : e.death? = some a) :
    ∃ s c t, e = .changed a s .dead c t := by
  unfold TraceEntry.death? at h
  split at h
  · obtain rfl := Option.some.inj h
    exact ⟨_, _, _, rfl⟩
  · cases h

theorem TraceEntry.addr_of_death? {e : TraceEntry} (h : e.death? = some a) : e.addr = a := by
  obtain ⟨s, c, t, rfl⟩ := TraceEntry.eq_of_death? h
  rfl

/-! ## The changes of a step -/

theorem mem_changes {s s' : Status} {t : Time} {c : Cause} :
    .changed a s s' c t ∈ changes cause now g g' ↔
      c = cause ∧ t = now ∧ s ≠ s' ∧
        ∃ m ∈ g.members.lookup a, ∃ m' ∈ g'.members.lookup a, m.status = s ∧ m'.status = s' := by
  simp only [changes, List.mem_filterMap]
  constructor
  · rintro ⟨b, -, hchange⟩
    unfold changeOf at hchange
    split at hchange
    · rename_i m m' hm hm'
      split_ifs at hchange with hsame
      simp only [Option.some.injEq, TraceEntry.changed.injEq] at hchange
      obtain ⟨rfl, rfl, rfl, rfl, rfl⟩ := hchange
      exact ⟨rfl, rfl, hsame, m, hm, m', hm', rfl, rfl⟩
    · cases hchange
  · rintro ⟨rfl, rfl, hne, m, hm, m', hm', rfl, rfl⟩
    refine ⟨a, AList.mem_keys.mp (AList.lookup_isSome.mp ?_), ?_⟩
    · rw [Option.mem_def.mp hm]
      rfl
    · simp only [changeOf, Option.mem_def.mp hm, Option.mem_def.mp hm', if_neg hne]

/-- What a step shows are changes. -/
theorem changed_of_mem {e : TraceEntry} (he : e ∈ changes cause now g g') :
    ∃ b s s', e = .changed b s s' cause now := by
  obtain ⟨b, -, hchange⟩ := List.mem_filterMap.mp he
  unfold changeOf at hchange
  split at hchange
  · split_ifs at hchange
    exact ⟨_, _, _, (Option.some.inj hchange).symm⟩
  · cases hchange

theorem calls_changes : calls (changes cause now g g') = [] := by
  refine List.filterMap_eq_nil_iff.mpr fun e he => ?_
  obtain ⟨b, s, s', rfl⟩ := changed_of_mem he
  rfl

/-- A step shows one change of a member at most. -/
theorem pairwise_changes : (changes cause now g g').Pairwise fun e e' => e.addr ≠ e'.addr := by
  refine List.Pairwise.filterMap _ (fun b b' hne e he e' he' => ?_) g.members.keys_nodup
  have haddr : ∀ b e, changeOf cause now g g' b = some e → e.addr = b := by
    intro b e he
    unfold changeOf at he
    split at he
    · split_ifs at he
      obtain rfl := Option.some.inj he
      rfl
    · cases he
  rw [haddr b e he, haddr b' e' he']
  exact hne

theorem addr_ne_of_changes {i j : ℕ} {e e' : TraceEntry}
    (hi : (changes cause now g g')[i]? = some e) (hj : (changes cause now g g')[j]? = some e')
    (hij : i < j) : e.addr ≠ e'.addr := by
  have hpair : (changes cause now g g').Pairwise fun e e' => e.addr ≠ e'.addr := pairwise_changes
  obtain ⟨hil, hie⟩ := List.getElem?_eq_some_iff.mp hi
  obtain ⟨hjl, hje⟩ := List.getElem?_eq_some_iff.mp hj
  have hne := List.pairwise_iff_getElem.mp hpair i j hil hjl hij
  rw [hie, hje] at hne
  exact hne

/-- So a member goes into `dead` once in it at most. -/
theorem nodup_transitions_changes : (transitions (changes cause now g g')).Nodup := by
  refine List.Pairwise.filterMap _ (fun e e' hne b hb b' hb' => ?_) pairwise_changes
  rw [TraceEntry.addr_of_death? hb, TraceEntry.addr_of_death? hb'] at hne
  exact hne

theorem mem_transitions_changes : a ∈ transitions (changes cause now g g') ↔
    ∃ m ∈ g.members.lookup a, ∃ m' ∈ g'.members.lookup a, m.status ≠ .dead ∧ m'.status = .dead := by
  rw [transitions, List.mem_filterMap]
  constructor
  · rintro ⟨e, he, hdeath⟩
    rcases e with ⟨b, t⟩ | ⟨b, s, s', c, t⟩
    · cases hdeath
    · rcases s' with - | - | -
      · cases hdeath
      · cases hdeath
      · obtain rfl := Option.some.inj hdeath
        obtain ⟨-, -, hne, m, hm, m', hm', rfl, hs'⟩ := mem_changes.mp he
        exact ⟨m, hm, m', hm', hne, hs'⟩
  · rintro ⟨m, hm, m', hm', hne, hdead⟩
    exact ⟨.changed a m.status .dead cause now,
      mem_changes.mpr ⟨rfl, rfl, hne, m, hm, m', hm', rfl, hdead⟩, rfl⟩

/-! ## What ticks and merges do -/

/-- **How the status of a member can change**: a tick suspects it, or
declares it dead when it has been silent for `deadAfter`; a merge brings it
back, with a heartbeat. -/
inductive Turn (now : Time) (m m' : MemberState) : Cause → Prop
  | same {cause : Cause} : m'.status = m.status → Turn now m m' cause
  | suspect : m.status = .alive → m'.status = .suspected → Turn now m m' .tick
  | die : m.status ≠ .dead → m'.status = .dead → deadAfter ≤ now - m.heartbeatAt →
      Turn now m m' .tick
  | revive : m'.status = .alive → m'.heartbeatAt = now → Turn now m m' .merge

/-- **What a tick or a merge does to a view**: the node's own status stays,
and every other member that is known has a turn. -/
structure Turns (cause : Cause) (now : Time) (g g' : GossipNode) : Prop where
  self_eq : g'.self = g.self
  own : (g'.members.lookup g.self).map MemberState.status
    = (g.members.lookup g.self).map MemberState.status
  turn : ∀ a, a ≠ g.self → ∀ m ∈ g.members.lookup a, m.heartbeatAt ≤ now →
    ∃ m' ∈ g'.members.lookup a, m.heartbeatAt ≤ m'.heartbeatAt ∧ m'.heartbeatAt ≤ now ∧
      Turn now m m' cause
  learned : ∀ a, a ≠ g.self → g.members.lookup a = none →
    ∀ m' ∈ g'.members.lookup a, m'.heartbeatAt ≤ now

theorem turns_tick (g : GossipNode) (now : Time) : Turns .tick now g (g.tick now) where
  self_eq := rfl
  own := by
    rw [tick_lookup, Option.map_map]
    congr 1
    funext m
    simp [GossipNode.tickMember]
  turn := by
    intro a ha m hm hpast
    refine ⟨GossipNode.ageMember now m, ?_, ?_⟩
    · rw [tick_lookup, Option.mem_def.mp hm]
      simp [GossipNode.tickMember, ha]
    · obtain ⟨hbeat, -, -⟩ := ageMember_spec now m
      rw [hbeat]
      refine ⟨le_rfl, hpast, ?_⟩
      simp only [GossipNode.ageMember]
      split_ifs with hdead hsuspect
      · exact .die hdead.2 rfl hdead.1
      · exact .suspect hsuspect.2.2 rfl
      · exact .same rfl
  learned := by
    intro a _ hnone m' hm'
    rw [tick_lookup, hnone] at hm'
    cases hm'

/-- A merge leaves a member its status, or brings it to life now. -/
theorem foldl_refresh_cases (now : Time) (cur : MemberState) (l : List MemberState) :
    let m := l.foldl (GossipNode.refresh now) cur
    (m.status = cur.status ∧ (m.heartbeatAt = cur.heartbeatAt ∨ m.heartbeatAt = now)) ∨
      (m.status = .alive ∧ m.heartbeatAt = now) := by
  induction l generalizing cur with
  | nil => exact .inl ⟨rfl, .inl rfl⟩
  | cons inc l ih =>
    rw [List.foldl_cons]
    rcases refresh_cases now cur inc with ⟨-, -, heq⟩ | ⟨-, -, -, heq⟩ | ⟨-, -, hnow, halive⟩
    · rw [heq]
      exact ih cur
    · rw [heq]
      rcases ih { cur with heartbeatAt := now } with ⟨hstatus, hbeat⟩ | hrevived
      · exact .inl ⟨hstatus, .inr (hbeat.elim id id)⟩
      · exact .inr hrevived
    · exact .inr ⟨foldl_refresh_alive l halive, foldl_refresh_heartbeat l hnow⟩

theorem turns_merge (g : GossipNode) (now : Time) (l : List MemberState) :
    Turns .merge now g (g.merge now l) where
  self_eq := merge_self g now l
  own := by rw [merge_lookup_self]
  turn := by
    intro a ha m hm hpast
    refine ⟨_, merge_lookup_of_mem now ha hm l, ?_⟩
    rcases foldl_refresh_cases now m (l.filter fun inc => inc.addr = a) with
      ⟨hstatus, hbeat | hbeat⟩ | ⟨halive, hbeat⟩
    · exact ⟨hbeat.ge, hbeat.trans_le hpast, .same hstatus⟩
    · exact ⟨hpast.trans hbeat.ge, hbeat.le, .same hstatus⟩
    · exact ⟨hpast.trans hbeat.ge, hbeat.le, .revive halive hbeat⟩
  learned := by
    intro a ha hnone m' hm'
    rw [merge_lookup ha, hnone] at hm'
    rcases hl : l.filter (fun inc => inc.addr = a) with - | ⟨inc, rest⟩ <;> rw [hl] at hm'
    · cases hm'
    · rw [List.foldl_cons, absorb, Option.elim_none, foldl_absorb] at hm'
      obtain rfl := Option.some.inj hm'
      have hbeat : (GossipNode.learned now inc).heartbeatAt = now := rfl
      exact (foldl_refresh_heartbeat rest hbeat).le

/-- A view that stays shows nothing. -/
theorem changes_self (cause : Cause) (now : Time) (g : GossipNode) :
    changes cause now g g = [] := by
  refine List.filterMap_eq_nil_iff.mpr fun b _ => ?_
  unfold changeOf
  rcases g.members.lookup b with - | ms
  · rfl
  · exact if_pos rfl

/-- **A tick calls for the members that it changes to `dead`.** -/
theorem newlyDead_perm (g : GossipNode) (now : Time) :
    (g.newlyDead now).Perm (transitions (changes .tick now g (g.tick now))) := by
  have hnodup : (g.newlyDead now).Nodup :=
    g.members.keys_nodup.sublist (List.filter_sublist.map _)
  refine (List.perm_ext_iff_of_nodup hnodup nodup_transitions_changes).mpr fun a => ?_
  rw [mem_newlyDead, mem_transitions_changes, tick_lookup]
  constructor
  · rintro ⟨hself, ms, hms, hage, hnot⟩
    refine ⟨ms, hms, g.tickMember now a ms, Option.mem_map_of_mem _ hms, hnot, ?_⟩
    rw [GossipNode.tickMember, if_neg hself]
    exact ageMember_dead.mpr (.inr hage)
  · rintro ⟨ms, hms, ms', hms', hnot, hdead⟩
    obtain ⟨ms'', hms'', rfl⟩ := Option.map_eq_some_iff.mp hms'
    obtain rfl := Option.some.inj (hms.symm.trans hms'')
    by_cases hself : a = g.self
    · rw [GossipNode.tickMember, if_pos hself] at hdead
      exact absurd hdead hnot
    · rw [GossipNode.tickMember, if_neg hself] at hdead
      exact ⟨hself, ms, hms, (ageMember_dead.mp hdead).resolve_left hnot, hnot⟩

/-- A merge changes nobody to `dead`. -/
theorem transitions_merge (g : GossipNode) (now : Time) (l : List MemberState) :
    transitions (changes .merge now g (g.merge now l)) = [] := by
  refine List.eq_nil_iff_forall_not_mem.mpr fun a ha => ?_
  obtain ⟨ms, hms, ms', hms', hnot, hdead⟩ := mem_transitions_changes.mp ha
  obtain ⟨ms'', hms'', hdead'⟩ := merge_dead hms' hdead
  obtain rfl := Option.some.inj (hms.symm.trans hms'')
  exact hnot hdead'

end Peers

end TftAnalytics

import TftAnalytics.Peers.Helpers.Trace
/-!
# Peers — what one event does to a node

A tick out of turn and a callback that is not due do nothing. What else an
event can do is said here once, with what it shows, and what is proved of a
run rests on that.
-/

namespace TftAnalytics

namespace Peers

open Gossip

namespace Member

variable {σ Op : Type} {H : Host σ Op} {m m' : Member σ} {ev : MemberEvent Op}
variable {es : List TraceEntry}

/-- **What one event can do**, and what it shows. -/
inductive Moves (H : Host σ Op) (m : Member σ) :
    MemberEvent Op → Member σ → List TraceEntry → Prop
  | idle (ev : MemberEvent Op) : Moves H m ev m []
  | advance (d : ℕ) : Moves H m (.advance d) { m with clock := m.clock + d } []
  | tick (dead : List GoString) (hpending : m.pending = [])
      (hdead : dead.Perm (m.gossip.newlyDead m.clock)) :
      Moves H m (.tick dead)
        { m with gossip := m.gossip.tick m.clock, pending := dead, deaths := m.deaths ++ dead }
        (changes .tick m.clock m.gossip (m.gossip.tick m.clock))
  | callback (addr : GoString) (rest : List GoString) (hpending : m.pending = addr :: rest) :
      Moves H m .callback { m with host := H.onPeerDead addr m.host, pending := rest }
        [.called addr m.clock]
  | merge (incoming : List MemberState) :
      Moves H m (.merge incoming) { m with gossip := m.gossip.merge m.clock incoming }
        (changes .merge m.clock m.gossip (m.gossip.merge m.clock incoming))
  | serve (op : Op) : Moves H m (.serve op) { m with host := H.serve op m.host } []

theorem moves_step (H : Host σ Op) (m : Member σ) (ev : MemberEvent Op) :
    Moves H m ev (m.step H ev) (m.entries H ev) := by
  cases ev with
  | advance d => exact .advance d
  | tick dead =>
    by_cases hen : m.pending = [] ∧ dead.Perm (m.gossip.newlyDead m.clock)
    · have hstep : m.step H (.tick dead) = { m with
          gossip := m.gossip.tick m.clock, pending := dead, deaths := m.deaths ++ dead } :=
        if_pos hen
      simp only [entries, hstep]
      exact .tick dead hen.1 hen.2
    · have hstep : m.step H (.tick dead) = m := if_neg hen
      simp only [entries, hstep, changes_self]
      exact .idle _
  | callback =>
    rcases hpending : m.pending with - | ⟨addr, rest⟩
    · simp only [step, entries, hpending]
      exact .idle _
    · simp only [step, entries, hpending]
      exact .callback addr rest hpending
  | merge incoming => exact .merge incoming
  | serve op => exact .serve op

/-- The node that it is stays. -/
theorem Moves.self_eq (h : Moves H m ev m' es) : m'.gossip.self = m.gossip.self := by
  cases h with
  | merge incoming => exact merge_self m.gossip m.clock incoming
  | _ => rfl

theorem step_gossip_self (H : Host σ Op) (m : Member σ) (ev : MemberEvent Op) :
    (m.step H ev).gossip.self = m.gossip.self := (moves_step H m ev).self_eq

theorem run_gossip_self (H : Host σ Op) (m : Member σ) (evs : List (MemberEvent Op)) :
    (m.run H evs).gossip.self = m.gossip.self := by
  unfold run
  induction evs generalizing m with
  | nil => rfl
  | cons ev evs ih => exact (ih (m.step H ev)).trans (step_gossip_self H m ev)

/-- **What becomes of the component**: nothing, or a peer is taken off its
ring, or it serves. -/
theorem Moves.host_cases (h : Moves H m ev m' es) :
    m'.host = m.host ∨ (∃ addr, m'.host = H.onPeerDead addr m.host) ∨
      ∃ op, ev = .serve op ∧ m'.host = H.serve op m.host := by
  cases h with
  | callback addr rest _ => exact .inr (.inl ⟨addr, rfl⟩)
  | serve op => exact .inr (.inr ⟨op, rfl, rfl⟩)
  | _ => exact .inl rfl

end Member

end Peers

end TftAnalytics

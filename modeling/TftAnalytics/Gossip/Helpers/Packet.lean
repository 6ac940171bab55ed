import TftAnalytics.Gossip.Model.Packet
import TftAnalytics.Gossip.Helpers.Node
/-!
# Gossip — what a packet does to a view

Helper layer. Of a status text the loop asks only whether it is `alive`, so
a packet without null elements is a merge of members with statuses. A
packet with one is a panic, wherever the null stands.
-/

namespace TftAnalytics

namespace Gossip

open GossipNode

variable {now : Time} {g g' : GossipNode} {b : GoString} {incoming : Incoming}

/-- An element as a member: any other text is as good as `dead`. -/
def WireMember.read (w : WireMember) : MemberState :=
  { addr := w.addr
    heartbeatAt := w.heartbeatAt
    incarnation := w.incarnation
    status := if w.status = statusAlive then .alive
      else if w.status = statusSuspected then .suspected
      else .dead }

@[simp] theorem WireMember.read_addr (w : WireMember) : w.read.addr = w.addr := rfl

@[simp] theorem WireMember.read_incarnation (w : WireMember) :
    w.read.incarnation = w.incarnation := rfl

@[simp] theorem WireMember.read_alive (w : WireMember) :
    w.read.status = .alive ↔ w.status = statusAlive := by
  unfold WireMember.read
  by_cases halive : w.status = statusAlive
  · simp [halive]
  · by_cases hsus : w.status = statusSuspected <;> simp [halive, hsus]

/-- **The loop tells an element from its reading nowhere.** -/
theorem receiveMember_eq (now : Time) (g : GossipNode) (w : WireMember) :
    receiveMember now g w = mergeOne now g w.read := by
  unfold receiveMember mergeOne
  simp only [ne_eq, WireMember.read_alive, WireMember.read_addr, WireMember.read_incarnation]
  by_cases hself : w.addr = g.self
  · rw [if_pos hself, if_pos hself]
  · rw [if_neg hself, if_neg hself]
    cases g.members.lookup w.addr with
    | none => rfl
    | some cur =>
      simp only [hear, refresh, WireMember.read_alive, WireMember.read_incarnation]

/-- **A packet without nulls is a merge.** -/
theorem receive_map_some (g : GossipNode) (now : Time) (ws : List WireMember) :
    g.receive now (ws.map some) = some (g.merge now (ws.map WireMember.read)) := by
  unfold receive merge
  induction ws generalizing g with
  | nil => rfl
  | cons w ws ih =>
    rw [List.map_cons, List.foldlM_cons, List.map_cons, List.foldl_cons, ← receiveMember_eq]
    exact ih _

/-- A packet is a packet without nulls, or has one. -/
theorem exists_map_some (h : none ∉ incoming) : ∃ ws : List WireMember, incoming = ws.map some := by
  induction incoming with
  | nil => exact ⟨[], rfl⟩
  | cons o rest ih =>
    rw [List.mem_cons, not_or] at h
    obtain ⟨ws, rfl⟩ := ih h.2
    cases o with
    | none => exact absurd rfl h.1
    | some w => exact ⟨w :: ws, rfl⟩

/-- **A packet with a null element is a panic.** -/
theorem receive_of_none_mem (h : none ∈ incoming) : g.receive now incoming = none := by
  unfold receive
  induction incoming generalizing g with
  | nil => cases h
  | cons o rest ih =>
    rw [List.foldlM_cons]
    cases o with
    | none => rfl
    | some w => exact ih ((List.mem_cons.mp h).resolve_left (by simp))

/-! ## Incarnations -/

/-- No entry lowers what is recorded of a member. -/
theorem le_refresh_incarnation (now : Time) (cur inc : MemberState) :
    cur.incarnation ≤ (refresh now cur inc).incarnation := by
  unfold refresh
  split_ifs with hnewer
  · exact UInt64.le_of_lt hnewer
  all_goals exact UInt64.le_refl _

theorem le_foldl_refresh_incarnation (now : Time) (cur : MemberState) (l : List MemberState) :
    cur.incarnation ≤ (l.foldl (refresh now) cur).incarnation := by
  induction l generalizing cur with
  | nil => exact UInt64.le_refl _
  | cons inc l ih => exact UInt64.le_trans (le_refresh_incarnation now cur inc) (ih _)

/-- Of the node itself an entry asks for more than it says, unless there is
no more. -/
theorem mergeOne_incarnation (now : Time) {inc : MemberState}
    (hroom : inc.addr = g.self → inc.status ≠ .alive → inc.incarnation.toNat + 1 < 2 ^ 64) :
    g.incarnation ≤ (mergeOne now g inc).incarnation ∧
      (inc.addr = g.self → inc.status ≠ .alive →
        inc.incarnation < (mergeOne now g inc).incarnation) := by
  unfold mergeOne
  split_ifs with hself hclaim
  · have hsucc : (inc.incarnation + 1).toNat = inc.incarnation.toNat + 1 := by
      have := hroom hself hclaim.1
      rw [UInt64.toNat_add, UInt64.toNat_one, Nat.mod_eq_of_lt this]
    have hle := UInt64.le_iff_toNat_le.mp hclaim.2
    refine ⟨UInt64.le_iff_toNat_le.mpr ?_, fun _ _ => UInt64.lt_iff_toNat_lt.mpr ?_⟩
    · rw [hsucc]
      omega
    · rw [hsucc]
      omega
  · refine ⟨UInt64.le_refl _, fun _ hst => ?_⟩
    rw [not_and] at hclaim
    exact UInt64.not_le.mp (hclaim hst)
  · refine ⟨?_, fun hself' => absurd hself' hself⟩
    cases g.members.lookup inc.addr <;> exact UInt64.le_refl _

/-- **And so along a whole list**, whatever its order. -/
theorem merge_incarnation {l : List MemberState}
    (hroom : ∀ inc ∈ l, inc.addr = g.self → inc.status ≠ .alive →
      inc.incarnation.toNat + 1 < 2 ^ 64) :
    g.incarnation ≤ (g.merge now l).incarnation ∧
      ∀ inc ∈ l, inc.addr = g.self → inc.status ≠ .alive →
        inc.incarnation < (g.merge now l).incarnation := by
  unfold merge
  induction l generalizing g with
  | nil => exact ⟨UInt64.le_refl _, by simp⟩
  | cons inc l ih =>
    rw [List.forall_mem_cons] at hroom
    obtain ⟨hle, hlt⟩ := mergeOne_incarnation now hroom.1
    obtain ⟨hle', hlt'⟩ := ih (g := mergeOne now g inc) (by simpa using hroom.2)
    rw [mergeOne_self] at hlt'
    rw [List.foldl_cons, List.forall_mem_cons]
    -- what the first entry is refuted at, the rest of the list keeps
    exact ⟨UInt64.le_trans hle hle', fun hself hst => UInt64.lt_of_lt_of_le (hlt hself hst) hle',
      hlt'⟩

end Gossip

end TftAnalytics

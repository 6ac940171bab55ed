import TftAnalytics.Gossip.Helpers.Packet
/-!
# Gossip — what a packet may do

Anything can be sent to the socket. A claim that the node is not alive is
answered with a greater incarnation, in whatever order the claims come and
however often, up to the one claim that leaves no greater incarnation:
there `in.Incarnation + 1` is zero. And a packet moves nothing it does not
name, up to the packet with a null element, which is a panic.
-/

namespace TftAnalytics

namespace Gossip

open GossipNode

/-- **What refuting means**: the node's own incarnation is not lowered and
exceeds every claim in the list that it is not alive, and no incarnation
recorded of another member is lowered. -/
structure Refuted (g : GossipNode) (ws : List WireMember) (g' : GossipNode) : Prop where
  own : g.incarnation ≤ g'.incarnation
  claims : ∀ w ∈ ws, w.addr = g.self → w.status ≠ statusAlive → w.incarnation < g'.incarnation
  others : ∀ b, b ≠ g.self → ∀ m ∈ g.members.lookup b,
    ∃ m' ∈ g'.members.lookup b, m.incarnation ≤ m'.incarnation

/-- No claim about the node is at the top of the range. -/
def RoomAbove (g : GossipNode) (ws : List WireMember) : Prop :=
  ∀ w ∈ ws, w.addr = g.self → w.status ≠ statusAlive → w.incarnation.toNat + 1 < 2 ^ 64

/-- **Refutation wins exactly where there is room above the claims.** -/
theorem refuted_iff_room (g : GossipNode) (now : Time) (ws : List WireMember) :
    (∃ g' ∈ g.receive now (ws.map some), Refuted g ws g') ↔ RoomAbove g ws := by
  rw [receive_map_some]
  constructor
  · rintro ⟨g', -, hrefuted⟩ w hw hself hst
    -- what is exceeded is not the greatest
    have hlt := UInt64.lt_iff_toNat_lt.mp (hrefuted.claims w hw hself hst)
    have hmax := g'.incarnation.toNat_lt
    omega
  · intro hroom
    refine ⟨_, rfl, ?_⟩
    have hmerge : g.incarnation ≤ (g.merge now (ws.map WireMember.read)).incarnation ∧
        ∀ inc ∈ ws.map WireMember.read, inc.addr = g.self → inc.status ≠ .alive →
          inc.incarnation < (g.merge now (ws.map WireMember.read)).incarnation := by
      refine merge_incarnation fun inc hinc hself hst => ?_
      obtain ⟨w, hw, rfl⟩ := List.mem_map.mp hinc
      exact hroom w hw hself (by simpa using hst)
    refine ⟨hmerge.1, fun w hw hself hst => ?_, fun b hb m hm => ?_⟩
    · exact hmerge.2 w.read (List.mem_map_of_mem hw) hself (by simpa using hst)
    · exact ⟨_, merge_lookup_of_mem now hb hm _, le_foldl_refresh_incarnation now m _⟩

/-- A claim at the top of the range is answered with incarnation zero. -/
theorem refutation_wraps : ¬ ∀ (g : GossipNode) (now : Time) (ws : List WireMember),
    ∃ g' ∈ g.receive now (ws.map some), Refuted g ws g' := by
  intro hall
  obtain ⟨g', hg', hrefuted⟩ := hall (new (ascii "a") [] 0) 1
    [⟨ascii "a", 0, 0xFFFFFFFFFFFFFFFF, ascii "dead"⟩]
  have hlt := hrefuted.claims _ (List.mem_singleton_self _) rfl (by decide)
  obtain rfl := Option.some.inj hg'
  exact absurd hlt (by decide)

/-- **What input may not do**: the step returns, members the payload does
not name stay as they are, and so does the node's own entry. -/
structure InputSafe (g : GossipNode) (incoming : Incoming) (o : Option GossipNode) : Prop where
  returns : o.isSome
  unnamed : ∀ g' ∈ o, ∀ b, (∀ w, some w ∈ incoming → w.addr ≠ b) →
    g'.members.lookup b = g.members.lookup b
  own : ∀ g' ∈ o, g'.members.lookup g.self = g.members.lookup g.self

/-- **Input is safe exactly where no element of it is null.** -/
theorem inputSafe_iff_no_null (unmarshal : Bytes → Option Incoming) (g : GossipNode) (now : Time)
    (payload : Bytes) :
    (∀ incoming ∈ unmarshal payload, InputSafe g incoming (g.recv unmarshal now payload)) ↔
      ∀ incoming ∈ unmarshal payload, none ∉ incoming := by
  refine forall₂_congr fun incoming hdecoded => ?_
  have hrecv : g.recv unmarshal now payload = g.receive now incoming := by
    unfold recv
    rw [Option.mem_def.mp hdecoded]
  rw [hrecv]
  constructor
  · intro hsafe hnull
    have hreturns := hsafe.returns
    rw [receive_of_none_mem hnull] at hreturns
    cases hreturns
  · intro hnull
    obtain ⟨ws, rfl⟩ := exists_map_some hnull
    rw [receive_map_some]
    refine ⟨rfl, fun g' hg' b hb => ?_, fun g' hg' => ?_⟩
    · obtain rfl := Option.some.inj hg'
      by_cases hself : b = g.self
      · rw [hself, merge_lookup_self]
      · -- no entry of the merge is about the member
        have hnone : (ws.map WireMember.read).filter (fun inc => inc.addr = b) = [] := by
          refine List.filter_eq_nil_iff.mpr fun inc hinc => ?_
          obtain ⟨w, hw, rfl⟩ := List.mem_map.mp hinc
          simp [hb w (List.mem_map_of_mem hw)]
        rw [merge_lookup hself, hnone, List.foldl_nil]
    · obtain rfl := Option.some.inj hg'
      exact merge_lookup_self g now _

/-- The payload `[null]` is a panic. -/
theorem null_element_panics : ¬ ∀ (unmarshal : Bytes → Option Incoming) (g : GossipNode)
    (now : Time) (payload : Bytes), ∀ incoming ∈ unmarshal payload,
      InputSafe g incoming (g.recv unmarshal now payload) := by
  intro hall
  have hsafe := hall (fun payload => if payload = ascii "[null]" then some [none] else none)
    (new (ascii "a") [] 0) 1 (ascii "[null]") [none] rfl
  exact absurd hsafe.returns (by decide)

end Gossip

end TftAnalytics

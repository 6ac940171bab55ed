import TftAnalytics.Hasher.Helpers.HashRing
/-!
# Hasher — who owns a slot

Helper layer. A node that is added gets its free slots and keeps them
until it is removed, and the replica list of a small ring is the set of
the nodes that own a slot.
-/

namespace TftAnalytics

namespace Hasher

namespace HashRing

variable {hash : GoString → UInt32} {r : HashRing} {a b : GoString} {slot : UInt32}

/-- **The node owns a slot of the ring.** -/
def Owns (r : HashRing) (a : GoString) : Prop := ∃ h ∈ r.ring, r.owner h = a

theorem Wf.owns (h : r.Wf) (hl : r.nodeMap.lookup slot = some a) : r.Owns a :=
  ⟨slot, (h.mem_ring slot).mpr (AList.lookup_isSome.mp (by simp [hl])), by simp [owner, hl]⟩

@[simp] theorem addNode_virtualNodes (r : HashRing) (a : GoString) :
    (r.addNode hash a).virtualNodes = r.virtualNodes := by
  have hfold : ∀ (is : List ℕ) (r : HashRing),
      (is.foldl (addSlot hash a) r).virtualNodes = r.virtualNodes := by
    intro is
    induction is with
    | nil => exact fun _ => rfl
    | cons i is ih =>
      intro r
      rw [List.foldl_cons, ih]
      simp only [addSlot]
      split_ifs <;> rfl
  unfold addNode
  split_ifs
  · rfl
  · exact hfold _ _

/-- **A node that is added owns its free slots.** -/
theorem lookup_addNode_self (ha : a ∉ r.nodes) {i : ℕ} (hi : i < r.virtualNodes)
    (hfree : slotHash hash a i ∉ r.nodeMap) :
    (r.addNode hash a).nodeMap.lookup (slotHash hash a i) = some a := by
  rw [addNode, if_neg ha]
  obtain ⟨-, hfrom, -, hfill⟩ := addSlot_spec hash a (List.range r.virtualNodes)
    { r with nodes := insert a r.nodes }
  obtain ⟨x, hx⟩ := Option.isSome_iff_exists.mp
    (AList.lookup_isSome.mpr (hfill i (List.mem_range.mpr hi)))
  rcases hfrom _ _ hx with hold | rfl
  · exact absurd (AList.lookup_isSome.mp (by simp [hold])) hfree
  · exact hx

/-- The slots of a ring are slots of the nodes that were added. -/
theorem mem_nodeMap_addNode (h : slot ∈ (r.addNode hash a).nodeMap) :
    slot ∈ r.nodeMap ∨ ∃ j < r.virtualNodes, slot = slotHash hash a j := by
  have hfold : ∀ (is : List ℕ) (r : HashRing), slot ∈ (is.foldl (addSlot hash a) r).nodeMap →
      slot ∈ r.nodeMap ∨ ∃ j ∈ is, slot = slotHash hash a j := by
    intro is
    induction is with
    | nil => exact fun _ h => Or.inl h
    | cons i is ih =>
      intro r h
      rcases ih _ h with h | ⟨j, hj, rfl⟩
      · simp only [addSlot] at h
        split_ifs at h
        · exact Or.inl h
        · rcases (AList.mem_insert _).mp h with rfl | h
          · exact Or.inr ⟨i, by simp, rfl⟩
          · exact Or.inl h
      · exact Or.inr ⟨j, by simp [hj], rfl⟩
  unfold addNode at h
  split_ifs at h
  · exact Or.inl h
  · obtain h | ⟨j, hj, rfl⟩ := hfold _ _ h
    · exact Or.inl h
    · exact Or.inr ⟨j, List.mem_range.mp hj, rfl⟩

theorem Wf.foldl_addNode (h : r.Wf) (peers : List GoString) :
    (peers.foldl (HashRing.addNode hash) r).Wf := by
  induction peers generalizing r with
  | nil => exact h
  | cons p peers ih => exact ih (h.addNode p)

theorem lookup_foldl_addNode (peers : List GoString) (hl : r.nodeMap.lookup slot = some a) :
    (peers.foldl (addNode hash) r).nodeMap.lookup slot = some a := by
  induction peers generalizing r with
  | nil => exact hl
  | cons p peers ih => exact ih (lookup_addNode hl p)

/-- **A node with a slot that no other node hashes to owns it**, in whatever
order the nodes are added. -/
theorem lookup_foldl_addNode_self {peers : List GoString} (ha : a ∈ peers) (hnodes : a ∉ r.nodes)
    (i : ℕ) (hi : i < r.virtualNodes) (hfree : slotHash hash a i ∉ r.nodeMap)
    (hother : ∀ p ∈ peers, p ≠ a → ∀ j < r.virtualNodes, slotHash hash p j ≠ slotHash hash a i) :
    (peers.foldl (addNode hash) r).nodeMap.lookup (slotHash hash a i) = some a := by
  induction peers generalizing r with
  | nil => cases ha
  | cons p peers ih =>
    rw [List.foldl_cons]
    by_cases hp : p = a
    · subst hp
      exact lookup_foldl_addNode peers (lookup_addNode_self hnodes hi hfree)
    · refine ih ((List.mem_cons.mp ha).resolve_left (Ne.symm hp)) ?_ (by simpa using hi) ?_ ?_
      · rw [addNode_nodes, Finset.mem_insert, not_or]
        exact ⟨Ne.symm hp, hnodes⟩
      · intro hmem
        rcases mem_nodeMap_addNode hmem with hmem | ⟨j, hj, heq⟩
        · exact hfree hmem
        · exact hother p (by simp) hp j hj heq.symm
      · intro q hq hqa j hj
        exact hother q (by simp [hq]) hqa j (by simpa using hj)

/-- **The replicas of a key in a ring of a few nodes** are the nodes that
own a slot. -/
theorem Wf.mem_getNodes (h : r.Wf) {key : GoString} {n : ℤ} (hn : (r.nodes.card : ℤ) ≤ n) :
    a ∈ r.getNodes hash key n ↔ r.Owns a :=
  HashRing.mem_getNodes (fun _ hs => h.owner_mem hs) hn

/-- Replicas are nodes of the ring, however many are asked for. -/
theorem Wf.getNodes_subset (h : r.Wf) {key : GoString} {n : ℤ} (ha : a ∈ r.getNodes hash key n) :
    a ∈ r.nodes := by
  unfold getNodes at ha
  split_ifs at ha with hempty
  · cases ha
  · have hslot := ((collect_spec _ _ [] List.nodup_nil).2 a ha).resolve_left List.not_mem_nil
    obtain ⟨slot, hs, rfl⟩ := (mem_walk hash key).mp hslot
    exact h.owner_mem hs

theorem Wf.owns_mem (h : r.Wf) (ha : r.Owns a) : a ∈ r.nodes := by
  obtain ⟨slot, hs, rfl⟩ := ha
  exact h.owner_mem hs

/-- **All nodes are replicas** where each of them owns a slot. -/
theorem Wf.getNodes_perm (h : r.Wf) (hall : ∀ x ∈ r.nodes, r.Owns x) {key : GoString} {n : ℤ}
    (hn : (r.nodes.card : ℤ) ≤ n) {l : List GoString} (hl : l.Nodup)
    (hnodes : r.nodes = l.toFinset) : (r.getNodes hash key n).Perm l := by
  refine (List.perm_ext_iff_of_nodup (getNodes_nodup r key n) hl).mpr fun x => ?_
  rw [h.mem_getNodes hn, ← List.mem_toFinset, ← hnodes]
  exact ⟨h.owns_mem, hall x⟩

end HashRing

end Hasher

end TftAnalytics

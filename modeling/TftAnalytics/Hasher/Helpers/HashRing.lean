import TftAnalytics.Hasher.Model.HashRing
/-!
# Hasher — nodes in, nodes out

Helper layer. The node set follows additions and removals, and a replica
list holds distinct owners of slots: all of them, when as many are asked
for as there are nodes.
-/

namespace TftAnalytics

namespace Hasher

namespace HashRing

variable {hash : GoString → UInt32} {r : HashRing}

/-! ## The node set -/

theorem foldl_addSlot_nodes (addr : GoString) (is : List ℕ) (r : HashRing) :
    (is.foldl (addSlot hash addr) r).nodes = r.nodes := by
  induction is generalizing r with
  | nil => rfl
  | cons i is ih =>
    rw [List.foldl_cons, ih]
    simp only [addSlot]
    split_ifs <;> rfl

@[simp] theorem addNode_nodes (r : HashRing) (addr : GoString) :
    (r.addNode hash addr).nodes = insert addr r.nodes := by
  unfold addNode
  split_ifs with h
  · rw [Finset.insert_eq_of_mem h]
  · exact foldl_addSlot_nodes addr _ _

@[simp] theorem removeNode_nodes (r : HashRing) (addr : GoString) :
    (r.removeNode addr).nodes = r.nodes.erase addr := by
  unfold removeNode
  split_ifs with h
  · rfl
  · rw [Finset.erase_eq_of_notMem h]

theorem foldl_addNode_nodes (addrs : List GoString) (r : HashRing) :
    (addrs.foldl (addNode hash) r).nodes = r.nodes ∪ addrs.toFinset := by
  induction addrs generalizing r with
  | nil => simp
  | cons addr addrs ih =>
    rw [List.foldl_cons, ih, addNode_nodes]
    ext x
    simp only [Finset.mem_union, Finset.mem_insert, List.toFinset_cons]
    tauto

/-! ## Slots -/

/-- **The ring's parts agree**: the slice lists the hashes of the map, and
the map's values are nodes of the ring. -/
structure Wf (r : HashRing) : Prop where
  mem_ring : ∀ h, h ∈ r.ring ↔ h ∈ r.nodeMap
  owned : ∀ h addr, r.nodeMap.lookup h = some addr → addr ∈ r.nodes

theorem Wf.owner_mem (h : r.Wf) {slot : UInt32} (hs : slot ∈ r.ring) : r.owner slot ∈ r.nodes := by
  obtain ⟨addr, hl⟩ := Option.isSome_iff_exists.mp
    (AList.lookup_isSome.mpr ((h.mem_ring slot).mp hs))
  rw [owner, hl]
  exact h.owned slot addr hl

theorem wf_new (virtualNodes : ℤ) : (new virtualNodes).Wf where
  mem_ring := by simp [new]
  owned := by simp [new]

/-- The loop of `AddNode` keeps taken slots and fills free ones. -/
theorem addSlot_spec (hash : GoString → UInt32) (addr : GoString) (is : List ℕ) (r : HashRing) :
    (∀ h a, r.nodeMap.lookup h = some a →
      (is.foldl (addSlot hash addr) r).nodeMap.lookup h = some a) ∧
    (∀ h a, (is.foldl (addSlot hash addr) r).nodeMap.lookup h = some a →
      r.nodeMap.lookup h = some a ∨ a = addr) ∧
    ((∀ h, h ∈ r.ring ↔ h ∈ r.nodeMap) → ∀ h, h ∈ (is.foldl (addSlot hash addr) r).ring ↔
      h ∈ (is.foldl (addSlot hash addr) r).nodeMap) ∧
    ∀ i ∈ is, slotHash hash addr i ∈ (is.foldl (addSlot hash addr) r).nodeMap := by
  induction is generalizing r with
  | nil => exact ⟨fun h a hl => hl, fun h a hl => Or.inl hl, fun hr => hr, by simp⟩
  | cons i is ih =>
    obtain ⟨hkeep, hfrom, hring, hfill⟩ := ih (addSlot hash addr r i)
    -- a slot that is taken keeps its owner
    have hlookup : ∀ h, (addSlot hash addr r i).nodeMap.lookup h
        = if h = slotHash hash addr i ∧ h ∉ r.nodeMap then some addr else r.nodeMap.lookup h := by
      intro h
      simp only [addSlot]
      split_ifs with htaken hnew hnew
      · exact absurd (hnew.1 ▸ htaken) hnew.2
      · rfl
      · rw [hnew.1, AList.lookup_insert]
      · rw [AList.lookup_insert_ne]
        rintro rfl
        exact hnew ⟨rfl, htaken⟩
    have hfirst : slotHash hash addr i ∈ (addSlot hash addr r i).nodeMap := by
      simp only [addSlot]
      split_ifs with htaken
      · exact htaken
      · simp
    refine ⟨fun h a hl => ?_, fun h a hl => ?_, fun hr => ?_, fun j hj => ?_⟩
    · refine hkeep h a ?_
      rw [hlookup, if_neg]
      · exact hl
      · exact fun hnew => hnew.2 (AList.lookup_isSome.mp (by simp [hl]))
    · refine (hfrom h a hl).elim (fun hl => ?_) Or.inr
      rw [hlookup] at hl
      split_ifs at hl with hnew
      · exact Or.inr (Option.some.inj hl).symm
      · exact Or.inl hl
    · refine hring fun h => ?_
      simp only [addSlot]
      split_ifs
      · exact hr h
      · simp [hr, or_comm]
    · rcases List.mem_cons.mp hj with rfl | hj
      · obtain ⟨a, ha⟩ := Option.isSome_iff_exists.mp (AList.lookup_isSome.mpr hfirst)
        exact AList.lookup_isSome.mp (by rw [List.foldl_cons, hkeep _ a ha]; rfl)
      · exact hfill j hj

theorem Wf.addNode (h : r.Wf) (addr : GoString) : (r.addNode hash addr).Wf := by
  unfold HashRing.addNode
  split_ifs with hin
  · exact h
  · obtain ⟨-, hfrom, hring, -⟩ := addSlot_spec hash addr (List.range r.virtualNodes)
      { r with nodes := insert addr r.nodes }
    refine ⟨fun slot => ?_, fun slot a hl => ?_⟩
    · simp only [List.mem_insertionSort]
      exact hring h.mem_ring slot
    · simp only [foldl_addSlot_nodes, Finset.mem_insert]
      exact (hfrom slot a hl).elim (fun hl => Or.inr (h.owned slot a hl)) Or.inl

/-- **Adding a node takes no slot away.** -/
theorem lookup_addNode {slot : UInt32} {a : GoString} (hl : r.nodeMap.lookup slot = some a)
    (addr : GoString) : (r.addNode hash addr).nodeMap.lookup slot = some a := by
  unfold HashRing.addNode
  split_ifs
  · exact hl
  · exact (addSlot_spec hash addr (List.range r.virtualNodes)
      { r with nodes := insert addr r.nodes }).1 slot a hl

theorem foldl_erase_lookup (hs : List UInt32) (m : AList fun _ : UInt32 => GoString)
    (slot : UInt32) :
    (hs.foldl (fun m h => m.erase h) m).lookup slot
      = if slot ∈ hs then none else m.lookup slot := by
  induction hs generalizing m with
  | nil => simp
  | cons h hs ih =>
    rw [List.foldl_cons, ih]
    by_cases hslot : slot = h
    · subst hslot
      simp
    · simp [hslot, AList.lookup_erase_ne]

/-- **Removing a node frees just its slots.** -/
theorem Wf.lookup_removeNode (h : r.Wf) {addr : GoString} (slot : UInt32) :
    (r.removeNode addr).nodeMap.lookup slot
      = if r.nodeMap.lookup slot = some addr then none else r.nodeMap.lookup slot := by
  unfold HashRing.removeNode
  split_ifs with hin hown hown
  · simp only [foldl_erase_lookup]
    rw [if_pos]
    rw [List.mem_filter, h.mem_ring]
    exact ⟨AList.lookup_isSome.mp (by simp [hown]), by simp [owner, hown]⟩
  · simp only [foldl_erase_lookup]
    split_ifs with hmem
    · obtain ⟨hr, hown'⟩ := List.mem_filter.mp hmem
      obtain ⟨a, ha⟩ := Option.isSome_iff_exists.mp
        (AList.lookup_isSome.mpr ((h.mem_ring slot).mp hr))
      rw [owner, ha] at hown'
      exact absurd (by simpa [ha] using hown') hown
    · rfl
  · exact absurd (h.owned slot addr hown) hin
  · rfl

theorem Wf.removeNode (h : r.Wf) (addr : GoString) : (r.removeNode addr).Wf where
  mem_ring := by
    intro slot
    have hmem : slot ∈ (r.removeNode addr).nodeMap ↔
        slot ∈ r.nodeMap ∧ r.nodeMap.lookup slot ≠ some addr := by
      rw [← AList.lookup_isSome, ← AList.lookup_isSome, h.lookup_removeNode]
      split_ifs with hown <;> simp [hown]
    rw [hmem, ← h.mem_ring, HashRing.removeNode]
    split_ifs with hin
    · simp only [List.mem_filter, ne_eq, decide_not, Bool.not_eq_true', decide_eq_false_iff_not]
      refine and_congr_right fun hs => not_congr ?_
      obtain ⟨a, ha⟩ := Option.isSome_iff_exists.mp
        (AList.lookup_isSome.mpr ((h.mem_ring slot).mp hs))
      simp [owner, ha]
    · exact ⟨fun hs => ⟨hs, fun hown => hin (h.owned slot addr hown)⟩, fun hs => hs.1⟩
  owned := by
    intro slot a hl
    rw [h.lookup_removeNode] at hl
    split_ifs at hl with hown
    rw [removeNode_nodes, Finset.mem_erase]
    exact ⟨fun heq => hown (heq ▸ hl), h.owned slot a hl⟩

/-! ## Replica lists -/

/-- The loop keeps the list duplicate-free, and adds slots' owners only. -/
theorem collect_spec (n : ℕ) (slots result : List GoString) (h : result.Nodup) :
    (collect n slots result).Nodup ∧
      ∀ x ∈ collect n slots result, x ∈ result ∨ x ∈ slots := by
  induction slots generalizing result with
  | nil => exact ⟨h, fun x hx => Or.inl hx⟩
  | cons node rest ih =>
    unfold collect
    split_ifs with hlen hmem
    · obtain ⟨hnodup, hsub⟩ := ih result h
      exact ⟨hnodup, fun x hx => (hsub x hx).imp_right (List.mem_cons_of_mem _)⟩
    · obtain ⟨hnodup, hsub⟩ := ih (result ++ [node])
        (List.nodup_append'.mpr ⟨h, List.nodup_singleton _, by simpa using hmem⟩)
      refine ⟨hnodup, fun x hx => ?_⟩
      rcases hsub x hx with hx | hx
      · rcases List.mem_append.mp hx with hx | hx
        · exact Or.inl hx
        · exact Or.inr (by simp [List.mem_singleton.mp hx])
      · exact Or.inr (List.mem_cons_of_mem _ hx)
    · exact ⟨h, fun x hx => Or.inl hx⟩

/-- With room for all of them, every owner of a slot is collected. -/
theorem mem_collect {n : ℕ} {slots result : List GoString} {s : Finset GoString}
    (hs : ∀ x ∈ slots, x ∈ s) (hres : ∀ x ∈ result, x ∈ s) (hnodup : result.Nodup)
    (hn : s.card ≤ n) : ∀ x, x ∈ result ∨ x ∈ slots → x ∈ collect n slots result := by
  induction slots generalizing result with
  | nil => exact fun x hx => hx.elim id fun h => absurd h List.not_mem_nil
  | cons node rest ih =>
    intro x hx
    have hrest : ∀ y ∈ rest, y ∈ s := fun y hy => hs y (List.mem_cons_of_mem _ hy)
    unfold collect
    split_ifs with hlen hmem
    · refine ih hrest hres hnodup x (hx.elim Or.inl fun h => ?_)
      rcases List.mem_cons.mp h with rfl | h
      · exact Or.inl hmem
      · exact Or.inr h
    · refine ih hrest ?_
        (List.nodup_append'.mpr ⟨hnodup, List.nodup_singleton _, by simpa using hmem⟩) x ?_
      · intro y hy
        rcases List.mem_append.mp hy with hy | hy
        · exact hres y hy
        · exact List.mem_singleton.mp hy ▸ hs node (by simp)
      · rcases hx with hx | hx
        · exact Or.inl (List.mem_append_left _ hx)
        · rcases List.mem_cons.mp hx with rfl | hx
          · exact Or.inl (by simp)
          · exact Or.inr hx
    · -- the list is as long as the set: it is the whole set
      have hsub : result.toFinset ⊆ s := fun y hy => hres y (List.mem_toFinset.mp hy)
      have hcard : s.card ≤ result.toFinset.card := by
        rw [List.toFinset_card_of_nodup hnodup]
        omega
      have heq := Finset.eq_of_subset_of_card_le hsub hcard
      have hxs : x ∈ s := hx.elim (hres x) (hs x)
      exact List.mem_toFinset.mp (heq ▸ hxs)

theorem getNodes_nodup (r : HashRing) (key : GoString) (n : ℤ) : (r.getNodes hash key n).Nodup := by
  unfold getNodes
  split_ifs
  · exact List.nodup_nil
  · exact (collect_spec _ _ [] List.nodup_nil).1

/-- The slots' owners, in whatever order a walk meets them. -/
theorem mem_walk (hash : GoString → UInt32) (key : GoString) {x : GoString} :
    x ∈ r.walk hash key ↔ ∃ h ∈ r.ring, r.owner h = x := by
  rw [walk, List.mem_map]
  constructor
  · rintro ⟨i, hi, rfl⟩
    have hlt : (r.search (hash key) + i) % r.ring.length < r.ring.length :=
      Nat.mod_lt _ (by have := List.mem_range.mp hi; omega)
    refine ⟨_, ?_, rfl⟩
    rw [List.getD_eq_getElem?_getD, List.getElem?_eq_getElem hlt, Option.getD_some]
    exact List.getElem_mem hlt
  · rintro ⟨h, hh, rfl⟩
    obtain ⟨j, hj, rfl⟩ := List.getElem_of_mem hh
    set n := r.ring.length with hn
    set s := r.search (hash key) with hs
    have hpos : 0 < n := by omega
    refine ⟨(j + (n - s % n)) % n, List.mem_range.mpr (Nat.mod_lt _ hpos), ?_⟩
    have hidx : (s + (j + (n - s % n)) % n) % n = j := by
      have hsn : s % n < n := Nat.mod_lt _ hpos
      have hsplit : s = n * (s / n) + s % n := (Nat.div_add_mod s n).symm
      rw [Nat.add_mod, Nat.mod_mod, ← Nat.add_mod]
      have heq : s + (j + (n - s % n)) = j + n * (s / n + 1) := by
        rw [Nat.mul_add, Nat.mul_one]
        omega
      rw [heq, Nat.add_mul_mod_self_left, Nat.mod_eq_of_lt hj]
    rw [hidx, List.getD_eq_getElem?_getD, List.getElem?_eq_getElem hj, Option.getD_some]

/-- **Every node that owns a slot is a replica**, when as many are asked for
as the ring has nodes, and the slots are owned by nodes of the ring. -/
theorem mem_getNodes {key : GoString} {n : ℤ} (howner : ∀ h ∈ r.ring, r.owner h ∈ r.nodes)
    (hn : (r.nodes.card : ℤ) ≤ n) {x : GoString} :
    x ∈ r.getNodes hash key n ↔ ∃ h ∈ r.ring, r.owner h = x := by
  unfold getNodes
  split_ifs with hempty
  · rcases hempty with hnil | hzero
    · simp [hnil]
    · have hcard : r.nodes.card = 0 := by omega
      rw [Finset.card_eq_zero] at hcard
      simp only [List.not_mem_nil, false_iff, not_exists, not_and]
      intro h hh
      have := howner h hh
      rw [hcard] at this
      exact absurd this (Finset.notMem_empty _)
  · rw [← mem_walk hash key]
    constructor
    · intro hx
      exact ((collect_spec _ _ [] List.nodup_nil).2 x hx).resolve_left List.not_mem_nil
    · intro hx
      refine mem_collect (s := r.nodes) (fun y hy => ?_) (by simp) List.nodup_nil (by omega) x
        (Or.inr hx)
      obtain ⟨h, hh, rfl⟩ := (mem_walk hash key).mp hy
      exact howner h hh

end HashRing

end Hasher

end TftAnalytics

import TftAnalytics.Common.Circle
import TftAnalytics.Hasher.Helpers.Owners
/-!
# Hasher — the walk around the ring

Helper layer. The slice of a ring is strictly increasing, through skipped
slots and through removals, so the walk of `GetNodes` is the slice read
clockwise from the hash of the key, and its result the first owners seen.
-/

namespace TftAnalytics

namespace Hasher

/-- Hashes are ordered as numbers. -/
instance linearOrderUInt32 : LinearOrder UInt32 where
  le := (· ≤ ·)
  lt := (· < ·)
  le_refl _ := UInt32.le_refl _
  le_trans _ _ _ := UInt32.le_trans
  lt_iff_le_not_ge a b := by
    rw [UInt32.not_le]
    exact ⟨fun h => ⟨UInt32.le_of_lt h, h⟩, fun h => h.2⟩
  le_antisymm _ _ := UInt32.le_antisymm
  le_total a b := UInt32.le_total a b
  toDecidableLE := inferInstance
  toDecidableLT := inferInstance

namespace HashRing

variable {hash : GoString → UInt32} {r : HashRing} {a c key : GoString}

/-! ## The slice is increasing -/

/-- **A sound ring**: its parts agree and its slice is strictly increasing. -/
structure Sound (r : HashRing) : Prop where
  wf : r.Wf
  increasing : r.ring.Pairwise (· < ·)

/-- The loop of `AddNode` lists no hash twice: it appends free slots only. -/
theorem foldl_addSlot_nodup (is : List ℕ) (r : HashRing)
    (hring : ∀ h, h ∈ r.ring ↔ h ∈ r.nodeMap) (h : r.ring.Nodup) :
    (is.foldl (addSlot hash a) r).ring.Nodup := by
  induction is generalizing r with
  | nil => exact h
  | cons i is ih =>
    have hone := addSlot_spec hash a [i] r
    rw [List.foldl_cons]
    refine ih _ (hone.2.2.1 hring) ?_
    simp only [addSlot]
    split_ifs with htaken
    · exact h
    · refine List.nodup_append'.mpr ⟨h, List.nodup_singleton _, ?_⟩
      simpa [hring] using htaken

theorem Sound.addNode (h : r.Sound) (a : GoString) : (r.addNode hash a).Sound := by
  refine ⟨h.wf.addNode a, ?_⟩
  unfold HashRing.addNode
  split_ifs with hin
  · exact h.increasing
  · have hnodup : ((List.range r.virtualNodes).foldl (addSlot hash a)
        { r with nodes := insert a r.nodes }).ring.Nodup :=
      foldl_addSlot_nodup _ _ h.wf.mem_ring (h.increasing.imp fun hlt => hlt.ne)
    have hsorted := List.pairwise_insertionSort (· ≤ · : UInt32 → UInt32 → Prop)
      ((List.range r.virtualNodes).foldl (addSlot hash a) { r with nodes := insert a r.nodes }).ring
    have hne := (List.perm_insertionSort (· ≤ · : UInt32 → UInt32 → Prop) _).nodup_iff.mpr hnodup
    exact hsorted.imp₂ (fun _ _ hle hne => lt_of_le_of_ne hle hne) hne

/-- Removal filters the slice, of nodes in the ring and of others. -/
theorem Wf.removeNode_ring (h : r.Wf) (c : GoString) :
    (r.removeNode c).ring = r.ring.filter fun slot => r.owner slot ≠ c := by
  unfold HashRing.removeNode
  split_ifs with hin
  · rfl
  · refine (List.filter_eq_self.mpr fun slot hslot => ?_).symm
    have hown := h.owner_mem hslot
    simpa using fun heq : r.owner slot = c => hin (heq ▸ hown)

theorem Sound.removeNode (h : r.Sound) (c : GoString) : (r.removeNode c).Sound := by
  refine ⟨h.wf.removeNode c, ?_⟩
  rw [h.wf.removeNode_ring]
  exact h.increasing.filter _

theorem sound_new (virtualNodes : ℤ) : (new virtualNodes).Sound :=
  ⟨wf_new virtualNodes, List.Pairwise.nil⟩

/-- **Every reachable ring is sound.** -/
theorem Reachable.sound {virtualNodes : ℤ} (h : Reachable hash virtualNodes r) : r.Sound := by
  induction h with
  | new => exact sound_new virtualNodes
  | addNode addr _ ih => exact ih.addNode addr
  | removeNode addr _ ih => exact ih.removeNode addr

/-- The body of the loop of `RemoveNode` in its own order: the map is read
while slots are deleted from it. -/
def removeSlot (c : GoString) (st : (AList fun _ : UInt32 => GoString) × List UInt32)
    (h : UInt32) : (AList fun _ : UInt32 => GoString) × List UInt32 :=
  if (st.1.lookup h).getD [] = c then (st.1.erase h, st.2) else (st.1, st.2 ++ [h])

theorem foldl_removeSlot (c : GoString) {slots : List UInt32} (hslots : slots.Nodup)
    (m : AList fun _ : UInt32 => GoString) (kept : List UInt32) :
    slots.foldl (removeSlot c) (m, kept)
      = ((slots.filter fun h => (m.lookup h).getD [] = c).foldl (fun m h => m.erase h) m,
          kept ++ slots.filter fun h => (m.lookup h).getD [] ≠ c) := by
  induction slots generalizing m kept with
  | nil => simp
  | cons h slots ih =>
    obtain ⟨hnew, hslots⟩ := List.nodup_cons.mp hslots
    rw [List.foldl_cons, removeSlot]
    by_cases hc : (m.lookup h).getD [] = c
    · -- the slots still to come do not miss the one deleted
      have hlookup : ∀ slot ∈ slots, (m.erase h).lookup slot = m.lookup slot := by
        intro slot hslot
        refine AList.lookup_erase_ne ?_
        rintro rfl
        exact hnew hslot
      rw [if_pos hc, ih hslots, List.filter_cons_of_pos (by simpa using hc),
        List.filter_cons_of_neg (by simpa using hc), List.foldl_cons]
      congr 2
      · exact List.filter_congr fun slot hslot => by rw [hlookup slot hslot]
      · exact List.filter_congr fun slot hslot => by rw [hlookup slot hslot]
    · rw [if_neg hc, ih hslots, List.filter_cons_of_neg (by simpa using hc),
        List.filter_cons_of_pos (by simpa using hc), List.append_assoc, List.singleton_append]

/-- **Slot by slot, the removal is the same**: the slice lists no slot
twice, so what is deleted is not asked for again. -/
theorem Sound.foldl_removeSlot (h : r.Sound) (hc : c ∈ r.nodes) :
    r.ring.foldl (removeSlot c) (r.nodeMap, [])
      = ((r.removeNode c).nodeMap, (r.removeNode c).ring) := by
  have hnodup : r.ring.Nodup := h.increasing.imp fun hlt => hlt.ne
  rw [HashRing.foldl_removeSlot c hnodup, HashRing.removeNode, if_neg (not_not.mpr hc),
    List.nil_append]
  rfl

/-- Slots that stay keep their owner. -/
theorem Wf.owner_removeNode (h : r.Wf) {slot : UInt32} (hc : r.owner slot ≠ c) :
    (r.removeNode c).owner slot = r.owner slot := by
  rw [owner, owner, h.lookup_removeNode, if_neg]
  intro hl
  exact hc (by rw [owner, hl]; rfl)

/-! ## The walk -/

/-- **The walk is the slice, clockwise from the key.** -/
theorem Sound.walk_eq (h : r.Sound) (key : GoString) :
    r.walk hash key = (clockwise (hash key) r.ring).map r.owner := by
  rw [walk, ← turn_eq_clockwise h.increasing (hash key) 0 rfl, List.map_map]
  rfl

/-- **What a removal does to the walk**: the node is struck from it. -/
theorem Sound.walk_removeNode (h : r.Sound) (hash : GoString → UInt32) (c key : GoString) :
    (r.removeNode c).walk hash key = (r.walk hash key).filter (· ≠ c) := by
  rw [(h.removeNode c).walk_eq, h.walk_eq, h.wf.removeNode_ring, clockwise_filter, List.filter_map]
  refine List.map_congr_left fun slot hslot => ?_
  exact h.wf.owner_removeNode (by simpa using (List.mem_filter.mp hslot).2)

/-! ## First owners seen -/

/-- The loop of `GetNodes` appends the first sightings, up to `n`. -/
theorem collect_eq (n : ℕ) (slots result : List GoString) (hlen : result.length ≤ n) :
    collect n slots result
      = (result ++ (slots.filter (· ∉ result)).eraseDups).take n := by
  induction slots generalizing result with
  | nil => simp [collect, List.take_of_length_le hlen]
  | cons node rest ih =>
    unfold collect
    split_ifs with hroom hseen
    · rw [ih result hlen, List.filter_cons_of_neg (by simpa using hseen)]
    · rw [ih _ (by simpa using Nat.succ_le_of_lt hroom),
        List.filter_cons_of_pos (by simpa using hseen),
        List.eraseDups_cons, List.filter_filter, List.append_assoc, List.singleton_append]
      congr 4
      refine List.filter_congr fun b _ => ?_
      by_cases hb : b = node
      · simp [hb]
      · simp [hb]
    · -- the result is full
      have hfull : result.length = n := by omega
      rw [← hfull, List.take_left]

theorem collect_nil (n : ℕ) (slots : List GoString) :
    collect n slots [] = slots.eraseDups.take n := by
  rw [collect_eq n slots [] (Nat.zero_le _), List.nil_append,
    List.filter_eq_self.mpr fun _ _ => by simp]

theorem ring_eq_nil_iff (key : GoString) : r.ring = [] ↔ r.walk hash key = [] := by
  simp [walk]

/-- Owners are nodes, so there are no more of them than nodes. -/
theorem Wf.length_eraseDups_walk (h : r.Wf) (hash : GoString → UInt32) (key : GoString) :
    (r.walk hash key).eraseDups.length ≤ r.nodes.card := by
  rw [length_eraseDups]
  refine Finset.card_le_card fun x hx => ?_
  obtain ⟨slot, hs, rfl⟩ := (mem_walk hash key).mp (List.mem_toFinset.mp hx)
  exact h.owner_mem hs

/-- **`GetNodes` is the start of the owners seen on the walk**, for every
number asked for. -/
theorem Wf.getNodes_eq (h : r.Wf) (key : GoString) (n : ℤ) :
    r.getNodes hash key n = (r.walk hash key).eraseDups.take n.toNat := by
  unfold getNodes
  split_ifs with hempty
  · rcases hempty with hnil | hzero
    · rw [(ring_eq_nil_iff key).mp hnil]
      simp
    · rw [Int.toNat_of_nonpos hzero, List.take_zero]
  · rw [collect_nil]
    have hle := h.length_eraseDups_walk hash key
    rcases le_total n.toNat r.nodes.card with hn | hn
    · rw [min_eq_left hn]
    · rw [min_eq_right hn, List.take_of_length_le hle, List.take_of_length_le (hle.trans hn)]

/-- `GetNode` is the first owner on the walk. -/
theorem getNode_eq (r : HashRing) (key : GoString) :
    r.getNode hash key = ((r.walk hash key).head?).getD [] := by
  unfold getNode
  split_ifs with hnil
  · rw [(ring_eq_nil_iff key).mp hnil]
    rfl
  · have hpos : 0 < r.ring.length := List.length_pos_of_ne_nil hnil
    have hlt : r.search (hash key) < r.ring.length := by
      simp only [search]
      split_ifs with hend
      · exact hpos
      · exact lt_of_le_of_ne List.findIdx_le_length hend
    obtain ⟨n, hn⟩ := Nat.exists_eq_succ_of_ne_zero hpos.ne'
    have hhead : (r.walk hash key).head?
        = some (r.owner (r.ring.getD (r.search (hash key)) 0)) := by
      rw [walk, hn, List.range_succ_eq_map, List.map_cons, List.head?_cons, Nat.add_zero, ← hn,
        Nat.mod_eq_of_lt hlt]
    rw [hhead, Option.getD_some]

end HashRing

end Hasher

end TftAnalytics

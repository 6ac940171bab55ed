import TftAnalytics.Hasher.Helpers.Walk
/-!
# Hasher — where keys are placed

What a ring that has seen any additions and removals promises of its
replica lists (`Reachable.replica_sets`), how little a removal moves
(`Reachable.minimal_disruption`), and what the order of additions decides:
the owner of a slot is the first node added that hashes to it
(`lookup_foldl_addNode_eq`), so rings agree where the first comers do
(`placement_agreement`). A node that comes and goes leaves nothing behind
(`Reachable.add_remove`).
-/

namespace TftAnalytics

namespace Hasher

namespace HashRing

variable {hash : GoString → UInt32} {r : HashRing} {a : GoString} {virtualNodes : ℤ}

/-! ## Replica lists -/

/-- The distinct owners of a ring's slots. -/
def slotOwners (r : HashRing) : Finset GoString := (r.ring.map r.owner).toFinset

theorem toFinset_walk (hash : GoString → UInt32) (r : HashRing) (key : GoString) :
    (r.walk hash key).toFinset = r.slotOwners := by
  ext x
  rw [List.mem_toFinset, mem_walk, slotOwners, List.mem_toFinset, List.mem_map]

theorem Wf.length_getNodes (h : r.Wf) (key : GoString) (n : ℤ) :
    (r.getNodes hash key n).length = min n.toNat r.slotOwners.card := by
  rw [h.getNodes_eq, List.length_take, length_eraseDups, toFinset_walk]

/-- The first replica is the node of the key. -/
theorem Wf.head?_getNodes (h : r.Wf) (hring : r.ring ≠ []) (key : GoString) {n : ℤ}
    (hn : 1 ≤ n) : (r.getNodes hash key n).head? = some (r.getNode hash key) := by
  obtain ⟨m, hm⟩ : ∃ m, n.toNat = m + 1 := ⟨n.toNat - 1, by omega⟩
  have hwalk : r.walk hash key ≠ [] := fun hnil => hring ((ring_eq_nil_iff key).mpr hnil)
  rw [h.getNodes_eq, getNode_eq, hm, List.head?_take, if_neg (by omega), head?_eraseDups,
    List.head?_eq_some_head hwalk, Option.getD_some]

theorem Wf.getNodes_prefix (h : r.Wf) (key : GoString) {m n : ℤ} (hmn : m ≤ n) :
    r.getNodes hash key m <+: r.getNodes hash key n := by
  rw [h.getNodes_eq, h.getNodes_eq]
  exact List.take_prefix_take_left (by omega)

/-- **Replica sets are well formed.** On every reachable ring the slice is
strictly increasing and lists the keys of the slot map, whose values are
current nodes; a list of replicas has no duplicates, only current nodes,
as many of them as were asked for or own a slot, and grows at its end.
Where there is a slot it starts with the node of the key. -/
theorem Reachable.replica_sets (h : Reachable hash virtualNodes r) :
    r.ring.Pairwise (· < ·) ∧ (∀ slot, slot ∈ r.ring ↔ slot ∈ r.nodeMap) ∧
    (∀ slot a, r.nodeMap.lookup slot = some a → a ∈ r.nodes) ∧
    ∀ (key : GoString) (n : ℤ), 1 ≤ n →
      (r.getNodes hash key n).Nodup ∧ (∀ a ∈ r.getNodes hash key n, a ∈ r.nodes) ∧
      (r.getNodes hash key n).length = min n.toNat r.slotOwners.card ∧
      (r.ring ≠ [] → (r.getNodes hash key n).head? = some (r.getNode hash key)) ∧
      r.getNodes hash key n <+: r.getNodes hash key (n + 1) := by
  have hs := h.sound
  refine ⟨hs.increasing, hs.wf.mem_ring, hs.wf.owned, fun key n hn => ?_⟩
  exact ⟨getNodes_nodup r key n, fun a ha => hs.wf.getNodes_subset ha,
    hs.wf.length_getNodes key n, fun hring => hs.wf.head?_getNodes hring key hn,
    hs.wf.getNodes_prefix key (by omega)⟩

/-- Of three nodes two of which collide, after a fourth has left. -/
def collided : HashRing :=
  (((((new 1).addNode crc32 (ascii "plumless")).addNode crc32 (ascii "a")).addNode crc32
    (ascii "buckeroo")).addNode crc32 (ascii "b")).removeNode (ascii "b")

theorem replica_sets_collided :
    (collided.getNodes crc32 [] 2).Nodup ∧ (collided.getNodes crc32 [] 2).length = 2 ∧
      (collided.getNodes crc32 [] 3).length = 2 ∧
      (collided.getNodes crc32 [] 2).head? = some (collided.getNode crc32 []) := by
  have h : Reachable crc32 1 collided := by
    unfold collided
    exact ((((Reachable.new.addNode _).addNode _).addNode _).addNode _).removeNode _
  have howners : collided.slotOwners.card = 2 := by decide +kernel
  obtain ⟨hnodup, -, hlen, hfirst, -⟩ := h.replica_sets.2.2.2 [] 2 (by decide)
  obtain ⟨-, -, hlen', -⟩ := h.replica_sets.2.2.2 [] 3 (by decide)
  rw [howners] at hlen hlen'
  exact ⟨hnodup, hlen, hlen', hfirst (by decide +kernel)⟩

/-- An empty ring has no replicas to start with the empty node `GetNode`
returns. -/
theorem no_first_replica :
    Reachable crc32 1 (new 1) ∧
      ((new 1).getNodes crc32 [] 1).head? ≠ some ((new 1).getNode crc32 []) :=
  ⟨Reachable.new, by decide⟩

/-! ## A node leaves -/

/-- **Minimal disruption.** After a removal the replicas are those of the
full order before, without the node that left; and only the keys of that
node change theirs. -/
theorem Reachable.minimal_disruption (h : Reachable hash virtualNodes r) (c key : GoString) :
    (∀ n : ℤ, (r.removeNode c).getNodes hash key n
      = ((r.getNodes hash key r.nodes.card).erase c).take n.toNat) ∧
    (r.getNode hash key ≠ c → (r.removeNode c).getNode hash key = r.getNode hash key) := by
  have hs := h.sound
  have hwalk := hs.walk_removeNode hash c key
  constructor
  · intro n
    have hfull : r.getNodes hash key r.nodes.card = (r.walk hash key).eraseDups := by
      rw [hs.wf.getNodes_eq, Int.toNat_natCast,
        List.take_of_length_le (hs.wf.length_eraseDups_walk hash key)]
    rw [(hs.removeNode c).wf.getNodes_eq, hwalk, eraseDups_filter, hfull,
      (nodup_eraseDups _).erase_eq_filter]
    simp only [bne, decide_not, beq_eq_decide]
  · intro hne
    rw [getNode_eq] at hne ⊢
    rw [getNode_eq, hwalk]
    -- the walk before is empty, or starts with a node that stays
    rcases hcase : r.walk hash key with _ | ⟨x, rest⟩
    · rfl
    · rw [hcase] at hne
      rw [List.filter_cons_of_pos (by simpa using hne)]
      rfl

theorem minimal_disruption_two :
    (((new 1).addNode crc32 (ascii "a")).addNode crc32 (ascii "b")).getNode crc32 [] ≠ ascii "a" ∧
      ((((new 1).addNode crc32 (ascii "a")).addNode crc32 (ascii "b")).removeNode
          (ascii "a")).getNode crc32 []
        = (((new 1).addNode crc32 (ascii "a")).addNode crc32 (ascii "b")).getNode crc32 [] := by
  have h : Reachable crc32 1 (((new 1).addNode crc32 (ascii "a")).addNode crc32 (ascii "b")) :=
    (Reachable.new.addNode _).addNode _
  have hne : (((new 1).addNode crc32 (ascii "a")).addNode crc32 (ascii "b")).getNode crc32 []
      ≠ ascii "a" := by decide +kernel
  exact ⟨hne, (h.minimal_disruption (ascii "a") []).2 hne⟩

/-! ## The order of additions -/

/-- The node has a virtual node at the slot. -/
def HashesTo (hash : GoString → UInt32) (k : ℕ) (slot : UInt32) (a : GoString) : Prop :=
  ∃ i < k, slotHash hash a i = slot

instance (k : ℕ) (slot : UInt32) : DecidablePred (HashesTo hash k slot) :=
  fun a => inferInstanceAs (Decidable (∃ i < k, slotHash hash a i = slot))

/-- The first node of an order of additions with a virtual node at the slot. -/
def firstComer (hash : GoString → UInt32) (k : ℕ) (order : List GoString) (slot : UInt32) :
    Option GoString :=
  order.find? fun a => HashesTo hash k slot a

/-- On a ring nothing has left, the nodes' slots are taken. -/
def Filled (hash : GoString → UInt32) (r : HashRing) : Prop :=
  ∀ a ∈ r.nodes, ∀ i < r.virtualNodes, slotHash hash a i ∈ r.nodeMap

/-- **Who gets a slot**: the node that is added, where the slot is free and
it hashes there. -/
theorem Filled.lookup_addNode (h : Filled hash r) (a : GoString) (slot : UInt32) :
    (r.addNode hash a).nodeMap.lookup slot
      = (r.nodeMap.lookup slot).or
          (if HashesTo hash r.virtualNodes slot a then some a else none) := by
  rcases hl : r.nodeMap.lookup slot with _ | b
  · have hfree : slot ∉ r.nodeMap := fun hmem => by
      simpa [hl] using AList.lookup_isSome.mpr hmem
    rw [Option.none_or]
    split_ifs with hat
    · obtain ⟨i, hi, rfl⟩ := hat
      exact lookup_addNode_self (fun ha => hfree (h a ha i hi)) hi hfree
    · rw [AList.lookup_eq_none]
      intro hmem
      rcases mem_nodeMap_addNode hmem with hmem | ⟨j, hj, rfl⟩
      · exact hfree hmem
      · exact hat ⟨j, hj, rfl⟩
  · rw [Option.some_or]
    exact HashRing.lookup_addNode hl a

theorem Filled.addNode (h : Filled hash r) (a : GoString) : Filled hash (r.addNode hash a) := by
  intro b hb i hi
  rw [addNode_virtualNodes] at hi
  rw [← AList.lookup_isSome, h.lookup_addNode]
  rw [addNode_nodes, Finset.mem_insert] at hb
  rcases hb with rfl | hb
  · rw [if_pos ⟨i, hi, rfl⟩, Option.isSome_or]
    exact Bool.or_true _
  · rw [Option.isSome_or, AList.lookup_isSome.mpr (h b hb i hi), Bool.true_or]

/-- **A slot is its first comer's**, for every order of additions. -/
theorem Filled.lookup_foldl_addNode (h : Filled hash r) (order : List GoString) (slot : UInt32) :
    (order.foldl (HashRing.addNode hash) r).nodeMap.lookup slot
      = (r.nodeMap.lookup slot).or (firstComer hash r.virtualNodes order slot) := by
  induction order generalizing r with
  | nil => exact (Option.or_none).symm
  | cons a order ih =>
    rw [List.foldl_cons, ih (h.addNode a), h.lookup_addNode, addNode_virtualNodes, Option.or_assoc]
    congr 1
    rw [firstComer, firstComer, List.find?_cons]
    by_cases hat : HashesTo hash r.virtualNodes slot a
    · simp [hat]
    · simp [hat]

/-- The ring after the additions of an order. -/
def built (hash : GoString → UInt32) (virtualNodes : ℤ) (order : List GoString) : HashRing :=
  order.foldl (addNode hash) (new virtualNodes)

theorem sound_built (order : List GoString) : (built hash virtualNodes order).Sound := by
  refine List.foldlRecOn order (addNode hash) (sound_new virtualNodes) fun r hr a _ => hr.addNode a

theorem lookup_built (order : List GoString) (slot : UInt32) :
    (built hash virtualNodes order).nodeMap.lookup slot
      = firstComer hash (new virtualNodes).virtualNodes order slot := by
  have hfilled : Filled hash (new virtualNodes) := fun a ha => absurd ha (Finset.notMem_empty a)
  rw [built, hfilled.lookup_foldl_addNode]
  rfl

theorem firstComer_isSome {k : ℕ} {order : List GoString} {slot : UInt32} :
    (firstComer hash k order slot).isSome ↔ ∃ a ∈ order, HashesTo hash k slot a := by
  simp [firstComer, List.find?_isSome]

/-- Whatever the order, the same slots are taken. -/
theorem built_ring_eq {l₁ l₂ : List GoString} (hnodes : ∀ a, a ∈ l₁ ↔ a ∈ l₂) :
    (built hash virtualNodes l₁).ring = (built hash virtualNodes l₂).ring := by
  have hmem : ∀ (order : List GoString) (slot : UInt32),
      slot ∈ (built hash virtualNodes order).ring ↔
        ∃ a ∈ order, HashesTo hash (new virtualNodes).virtualNodes slot a := by
    intro order slot
    rw [(sound_built order).wf.mem_ring, ← AList.lookup_isSome, lookup_built, firstComer_isSome]
  refine (sound_built l₁).increasing.eq_of_mem_iff (sound_built l₂).increasing fun slot => ?_
  rw [hmem, hmem]
  simp only [hnodes]

/-- Rings of the same nodes agree on every key where the slots' first
comers do. -/
theorem getNodes_built_eq {l₁ l₂ : List GoString} (hnodes : ∀ a, a ∈ l₁ ↔ a ∈ l₂)
    (hfirst : ∀ slot, firstComer hash (new virtualNodes).virtualNodes l₁ slot
      = firstComer hash (new virtualNodes).virtualNodes l₂ slot) (key : GoString) (n : ℤ) :
    (built hash virtualNodes l₁).getNodes hash key n
      = (built hash virtualNodes l₂).getNodes hash key n := by
  have howner : (built hash virtualNodes l₁).owner = (built hash virtualNodes l₂).owner := by
    funext slot
    rw [owner, owner, lookup_built, lookup_built, hfirst]
  rw [(sound_built l₁).wf.getNodes_eq, (sound_built l₂).wf.getNodes_eq, (sound_built l₁).walk_eq,
    (sound_built l₂).walk_eq, built_ring_eq hnodes, howner]

/-- A key that hashes to a slot is placed on its owner. -/
theorem Sound.getNodes_one (h : r.Sound) {key : GoString} (hslot : hash key ∈ r.ring) :
    r.getNodes hash key 1 = [r.owner (hash key)] := by
  have hhead : (r.walk hash key).head? = some (r.owner (hash key)) := by
    rw [h.walk_eq, List.head?_map, head?_clockwise_of_mem h.increasing hslot, Option.map_some]
  rw [h.wf.getNodes_eq, show (1 : ℤ).toNat = 1 from rfl, List.take_one, head?_eraseDups, hhead]
  rfl

/-- Without a collision of two nodes, a slot has one comer at most. -/
theorem firstComer_eq_of_injective {k : ℕ} {l₁ l₂ : List GoString}
    (hnodes : ∀ a, a ∈ l₁ ↔ a ∈ l₂)
    (hapart : ∀ a ∈ l₁, ∀ b ∈ l₁, ∀ i < k, ∀ j < k, slotHash hash a i = slotHash hash b j → a = b)
    (slot : UInt32) : firstComer hash k l₁ slot = firstComer hash k l₂ slot := by
  rcases h₁ : firstComer hash k l₁ slot with _ | a
  · rcases h₂ : firstComer hash k l₂ slot with _ | b
    · rfl
    · obtain ⟨a, ha, hat⟩ := firstComer_isSome.mp (Option.isSome_of_eq_some h₂)
      have hsome := firstComer_isSome.mpr ⟨a, (hnodes a).mpr ha, hat⟩
      rw [h₁] at hsome
      exact absurd hsome (by simp)
  · have ha := List.mem_of_find?_eq_some h₁
    have hat : HashesTo hash k slot a := by simpa using List.find?_some h₁
    have hsome := firstComer_isSome.mpr ⟨a, (hnodes a).mp ha, hat⟩
    obtain ⟨b, h₂⟩ := Option.isSome_iff_exists.mp hsome
    have hb := (hnodes b).mpr (List.mem_of_find?_eq_some h₂)
    have hbt : HashesTo hash k slot b := by simpa using List.find?_some h₂
    obtain ⟨i, hi, hai⟩ := hat
    obtain ⟨j, hj, hbj⟩ := hbt
    rw [h₂, hapart a ha b hb i hi j hj (hai.trans hbj.symm)]

/-- **Placement agreement**, up to collisions. Two rings that add the same
nodes give the same replicas for every key when each slot's first comer is
the same in both orders, as it is when no two nodes collide; and for a hash
function that takes every value they agree only then. -/
theorem placement_agreement {l₁ l₂ : List GoString} (hnodes : ∀ a, a ∈ l₁ ↔ a ∈ l₂) :
    ((∀ slot, firstComer hash (new virtualNodes).virtualNodes l₁ slot
        = firstComer hash (new virtualNodes).virtualNodes l₂ slot) →
      ∀ key n, (built hash virtualNodes l₁).getNodes hash key n
        = (built hash virtualNodes l₂).getNodes hash key n) ∧
    ((∀ a ∈ l₁, ∀ b ∈ l₁, ∀ i < (new virtualNodes).virtualNodes,
        ∀ j < (new virtualNodes).virtualNodes, slotHash hash a i = slotHash hash b j → a = b) →
      ∀ key n, (built hash virtualNodes l₁).getNodes hash key n
        = (built hash virtualNodes l₂).getNodes hash key n) ∧
    (Function.Surjective hash →
      (∀ key n, (built hash virtualNodes l₁).getNodes hash key n
        = (built hash virtualNodes l₂).getNodes hash key n) →
      ∀ slot, firstComer hash (new virtualNodes).virtualNodes l₁ slot
        = firstComer hash (new virtualNodes).virtualNodes l₂ slot) := by
  refine ⟨getNodes_built_eq hnodes,
    fun hapart => getNodes_built_eq hnodes (firstComer_eq_of_injective hnodes hapart),
    fun hsurj hagree slot => ?_⟩
  have hs₁ : (built hash virtualNodes l₁).Sound := sound_built l₁
  have hs₂ : (built hash virtualNodes l₂).Sound := sound_built l₂
  have hring : (built hash virtualNodes l₁).ring = (built hash virtualNodes l₂).ring :=
    built_ring_eq hnodes
  -- the key that falls on the slot has its owner for first node
  obtain ⟨key, rfl⟩ := hsurj slot
  rw [← lookup_built, ← lookup_built]
  by_cases hslot : hash key ∈ (built hash virtualNodes l₁).ring
  · have hone := hagree key 1
    rw [hs₁.getNodes_one hslot, hs₂.getNodes_one (hring ▸ hslot), List.singleton_inj] at hone
    obtain ⟨a, ha⟩ := Option.isSome_iff_exists.mp
      (AList.lookup_isSome.mpr ((hs₁.wf.mem_ring _).mp hslot))
    obtain ⟨b, hb⟩ := Option.isSome_iff_exists.mp
      (AList.lookup_isSome.mpr ((hs₂.wf.mem_ring _).mp (hring ▸ hslot)))
    rw [owner, owner, ha, hb] at hone
    rw [ha, hb]
    exact congrArg some hone
  · have h₁ := mt (hs₁.wf.mem_ring _).mpr hslot
    have h₂ := mt (hs₂.wf.mem_ring _).mpr (hring ▸ hslot)
    rw [AList.lookup_eq_none.mpr h₁, AList.lookup_eq_none.mpr h₂]

theorem placement_agreement_two :
    (built crc32 1 [ascii "a", ascii "b"]).getNodes crc32 [] 2
      = (built crc32 1 [ascii "b", ascii "a"]).getNodes crc32 [] 2 :=
  (placement_agreement fun a => by simp [or_comm]).2.1 (by decide +kernel) [] 2

/-- Two addresses with one CRC-32 collide on all of their slots, and each
order of adding them gives a ring of its own. -/
theorem placement_depends_on_order :
    (∀ a, a ∈ [ascii "plumless", ascii "buckeroo"] ↔ a ∈ [ascii "buckeroo", ascii "plumless"]) ∧
      (built crc32 1 [ascii "plumless", ascii "buckeroo"]).getNodes crc32 [] 1
        ≠ (built crc32 1 [ascii "buckeroo", ascii "plumless"]).getNodes crc32 [] 1 :=
  ⟨fun a => by simp [or_comm], by decide +kernel⟩

/-! ## In and out again -/

theorem kerase_eq_filter {l : List (Sigma fun _ : UInt32 => GoString)} (hl : l.NodupKeys)
    (h : UInt32) : l.kerase h = l.filter fun e => e.1 ≠ h := by
  induction l with
  | nil => rfl
  | cons e l ih =>
    obtain ⟨hnew, hl⟩ := List.nodupKeys_cons.mp hl
    by_cases he : h = e.1
    · subst he
      rw [List.kerase_cons_eq rfl, List.filter_cons_of_neg (by simp)]
      refine (List.filter_eq_self.mpr fun e' he' => ?_).symm
      have hkey : e'.1 ∈ l.keys := List.mem_keys_of_mem he'
      simpa using fun heq : e'.1 = e.1 => hnew (heq ▸ hkey)
    · rw [List.kerase_cons_ne he, List.filter_cons_of_pos (by simpa using Ne.symm he), ih hl]

theorem foldl_erase_entries (hs : List UInt32) (m : AList fun _ : UInt32 => GoString) :
    (hs.foldl (fun m h => m.erase h) m).entries = m.entries.filter fun e => e.1 ∉ hs := by
  induction hs generalizing m with
  | nil => simp
  | cons h hs ih =>
    have herase : (m.erase h).entries = m.entries.filter fun e => e.1 ≠ h :=
      kerase_eq_filter m.nodupKeys h
    rw [List.foldl_cons, ih, herase, List.filter_filter]
    refine List.filter_congr fun e _ => ?_
    simp [Bool.and_comm]

/-- What an addition adds to the map is the new node's. -/
theorem foldl_addSlot_entries (a : GoString) (is : List ℕ) (r : HashRing) :
    (is.foldl (addSlot hash a) r).nodeMap.entries.filter (fun e => e.2 ≠ a)
      = r.nodeMap.entries.filter fun e => e.2 ≠ a := by
  induction is generalizing r with
  | nil => rfl
  | cons i is ih =>
    rw [List.foldl_cons, ih]
    simp only [addSlot]
    split_ifs with htaken
    · rfl
    · rw [AList.entries_insert_of_notMem htaken, List.filter_cons_of_neg (by simp)]


/-- Removal strikes the node's entries from the map. -/
theorem Wf.removeNode_entries (h : r.Wf) (a : GoString) :
    (r.removeNode a).nodeMap.entries = r.nodeMap.entries.filter fun e => e.2 ≠ a := by
  have howner : ∀ e ∈ r.nodeMap.entries, r.owner e.1 = e.2 := fun e he => by
    rw [owner, Option.mem_def.mp (AList.mem_lookup_iff.mpr he), Option.getD_some]
  unfold HashRing.removeNode
  split_ifs with hin
  · rw [foldl_erase_entries]
    refine List.filter_congr fun e he => ?_
    have hring : e.1 ∈ r.ring := (h.mem_ring e.1).mpr (List.mem_keys_of_mem he)
    simp [hring, howner e he]
  · refine (List.filter_eq_self.mpr fun e he => ?_).symm
    have hnode := h.owned e.1 e.2 (AList.mem_lookup_iff.mpr he)
    simpa using fun heq : e.2 = a => hin (heq ▸ hnode)

theorem addNode_entries (ha : a ∉ r.nodes) :
    (r.addNode hash a).nodeMap.entries.filter (fun e => e.2 ≠ a)
      = r.nodeMap.entries.filter fun e => e.2 ≠ a := by
  rw [addNode, if_neg ha]
  exact foldl_addSlot_entries a _ _

@[simp] theorem removeNode_virtualNodes (r : HashRing) (a : GoString) :
    (r.removeNode a).virtualNodes = r.virtualNodes := by
  unfold removeNode
  split_ifs <;> rfl

/-- **A node that is added and removed leaves the ring as it was**, the
slice, the map and the node set, whatever its virtual nodes collide with. -/
theorem Reachable.add_remove (h : Reachable hash virtualNodes r) (ha : a ∉ r.nodes) :
    (r.addNode hash a).removeNode a = r := by
  have hs := h.sound
  have hadd : (r.addNode hash a).Sound := hs.addNode a
  have hback := hadd.removeNode a
  have hmap : ((r.addNode hash a).removeNode a).nodeMap = r.nodeMap := by
    refine AList.ext ?_
    rw [hadd.wf.removeNode_entries, addNode_entries ha]
    refine List.filter_eq_self.mpr fun e he => ?_
    have hnode := hs.wf.owned e.1 e.2 (AList.mem_lookup_iff.mpr he)
    simpa using fun heq : e.2 = a => ha (heq ▸ hnode)
  refine HashRing.ext (by simp) ?_ hmap ?_
  · -- two increasing slices of the keys of one map
    refine hback.increasing.eq_of_mem_iff hs.increasing fun slot => ?_
    rw [hback.wf.mem_ring, hs.wf.mem_ring, hmap]
  · rw [removeNode_nodes, addNode_nodes, Finset.erase_insert ha]

theorem add_remove_colliding :
    (((new 1).addNode crc32 (ascii "plumless")).addNode crc32 (ascii "buckeroo")).removeNode
        (ascii "buckeroo")
      = (new 1).addNode crc32 (ascii "plumless") := by
  have h : Reachable crc32 1 ((new 1).addNode crc32 (ascii "plumless")) := Reachable.new.addNode _
  exact h.add_remove (by decide)

end HashRing

end Hasher

end TftAnalytics

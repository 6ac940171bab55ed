import TftAnalytics.Metastore.Helpers.Cache
import TftAnalytics.Common.Recency
/-!
# Metastore — the cache is a least recently used list

The recency list of the cache, read off by key, goes through the steps of
the abstract list, and the map names its elements. An element holds what
was last put for its key.
-/

namespace TftAnalytics

namespace Metastore

namespace LRUCache

/-- An operation of the cache. -/
def apply (c : LRUCache) : Recency.Op GoString Bytes → LRUCache
  | .get key => (c.get key).2
  | .put key value => c.put key value
  | .remove key => c.remove key

/-- The keys of the recency list, in order. -/
def keys (c : LRUCache) : List GoString := c.ll.map (·.key)

variable {c : LRUCache}

theorem Wf.mem_keys (h : c.Wf) {key : GoString} :
    key ∈ c.keys ↔ ∃ id, c.items.lookup key = some id := by
  unfold keys
  rw [List.mem_map]
  constructor
  · rintro ⟨el, hel, hkey⟩
    exact ⟨el.id, (h.items_iff key el.id).mpr ⟨el, hel, hkey, rfl⟩⟩
  · rintro ⟨id, hid⟩
    obtain ⟨el, hel, hkey, -⟩ := (h.items_iff key id).mp hid
    exact ⟨el, hel, hkey⟩

/-- **The map and the list hold the same keys.** -/
theorem Wf.perm_keys (h : c.Wf) (hnodup : c.keys.Nodup) : c.items.keys.Perm c.keys := by
  refine (List.perm_ext_iff_of_nodup c.items.nodupKeys hnodup).mpr fun key => ?_
  rw [h.mem_keys, ← Option.isSome_iff_exists, AList.lookup_isSome]
  rfl

/-- Without an element, the list is without its key. -/
theorem Wf.keys_filter (h : c.Wf) {el : LRUElement} (hel : el ∈ c.ll) :
    (c.ll.filter (·.id ≠ el.id)).map (·.key) = c.keys.filter (· ≠ el.key) := by
  unfold keys
  rw [List.filter_map]
  congr 1
  refine List.filter_congr fun e he => ?_
  have hiff : e.id = el.id ↔ e.key = el.key :=
    ⟨fun hid => by rw [h.eq_of_id he hel hid], fun hkey => by rw [h.eq_of_key he hel hkey]⟩
  simp [hiff]

theorem Wf.keys_moveToFront (h : c.Wf) {el : LRUElement} (hel : el ∈ c.ll) :
    (c.moveToFront el.id).keys = Recency.touch c.keys el.key := by
  unfold keys LRUCache.moveToFront
  rw [h.element_eq hel]
  show el.key :: _ = _
  rw [h.keys_filter hel]
  rfl

/-- **The last key goes.** -/
theorem Wf.keys_evict (h : c.Wf) : c.evict.keys = c.keys.dropLast := by
  rcases List.eq_nil_or_concat' c.ll with hnil | ⟨init, last, hll⟩
  · unfold LRUCache.evict keys
    rw [hnil]
    simp [hnil]
  · have hlast : c.ll.getLast? = some last := by rw [hll, List.getLast?_concat]
    have hids := h.ids_nodup
    rw [hll, List.map_append, List.map_singleton, List.nodup_append] at hids
    have hinit : c.ll.filter (·.id ≠ last.id) = init := by
      rw [hll, List.filter_append, List.filter_eq_self.mpr, List.filter_cons_of_neg (by simp),
        List.filter_nil, List.append_nil]
      intro e he
      simpa using hids.2.2 e.id (List.mem_map_of_mem he) last.id (by simp)
    unfold LRUCache.evict keys
    rw [hlast]
    show (c.ll.filter (·.id ≠ last.id)).map _ = _
    rw [hinit, hll, List.map_append, List.map_singleton, List.dropLast_concat]

/-- A new value changes no key. -/
theorem keys_setValue (ll : List LRUElement) (id : ℕ) (value : Bytes) :
    (ll.map fun el => if el.id = id then { el with value := value } else el).map (·.key)
      = ll.map (·.key) := by
  rw [List.map_map]
  refine List.map_congr_left fun el _ => ?_
  simp only [Function.comp_apply]
  split_ifs <;> rfl

/-! ## The operations -/

variable {n : ℕ}

/-- A key of the list has its element. -/
theorem Wf.exists_element (h : c.Wf) {key : GoString} (hmem : key ∈ c.keys) :
    ∃ el ∈ c.ll, el.key = key ∧ c.items.lookup key = some el.id := by
  obtain ⟨id, hid⟩ := h.mem_keys.mp hmem
  obtain ⟨el, hel, hkey, rfl⟩ := (h.items_iff key id).mp hid
  exact ⟨el, hel, hkey, hid⟩

/-- And no other key has an entry in the map. -/
theorem Wf.lookup_eq_none (h : c.Wf) {key : GoString} (hmem : key ∉ c.keys) :
    c.items.lookup key = none := by
  rwa [h.mem_keys, ← Option.ne_none_iff_exists', not_not] at hmem

theorem Wf.keys_get (h : c.Wf) (n : ℕ) (key : GoString) :
    (c.get key).2.keys = Recency.step n c.keys (.get key : Recency.Op GoString Bytes) := by
  unfold LRUCache.get Recency.step
  dsimp only
  split_ifs with hmem
  · obtain ⟨el, hel, rfl, hid⟩ := h.exists_element hmem
    simp only [hid]
    exact h.keys_moveToFront hel
  · simp only [h.lookup_eq_none hmem]

theorem Wf.keys_put (h : c.Wf) (hcap : c.capacity = n) (hlen : c.keys.length ≤ n)
    (key : GoString) (value : Bytes) :
    (c.put key value).keys = Recency.step n c.keys (.put key value) := by
  unfold Recency.step
  dsimp only
  split_ifs with hmem <;> unfold LRUCache.put
  · obtain ⟨el, hel, rfl, hid⟩ := h.exists_element hmem
    simp only [hid]
    unfold keys
    rw [keys_setValue]
    exact h.keys_moveToFront hel
  · have hnone := h.lookup_eq_none hmem
    have hpush := h.push hnone value
    rw [hcap] at hpush
    have hlength : c.keys.length = c.ll.length := List.length_map _
    simp only [hnone, hcap, List.length_cons]
    split_ifs with hfull
    · -- a full list: the last key goes
      rw [hpush.keys_evict, List.dropLast_eq_take]
      show (key :: c.keys).take _ = _
      congr 1
      show (key :: c.keys).length - 1 = n
      rw [List.length_cons]
      omega
    · rw [List.take_of_length_le (by rw [List.length_cons]; omega)]
      rfl

theorem Wf.keys_remove (h : c.Wf) (n : ℕ) (key : GoString) :
    (c.remove key).keys = Recency.step n c.keys (.remove key : Recency.Op GoString Bytes) := by
  unfold Recency.step
  dsimp only
  by_cases hmem : key ∈ c.keys
  · obtain ⟨el, hel, rfl, hid⟩ := h.exists_element hmem
    rw [remove_eq_drop rfl hid]
    exact h.keys_filter hel
  · unfold LRUCache.remove
    rw [h.lookup_eq_none hmem, List.filter_eq_self.mpr fun key' hkey' => ?_]
    simpa using fun heq : key' = key => hmem (heq ▸ hkey')

theorem capacity_apply (c : LRUCache) (op : Recency.Op GoString Bytes) :
    (c.apply op).capacity = c.capacity := by
  have hmove : ∀ id, (c.moveToFront id).capacity = c.capacity := by
    intro id
    unfold moveToFront
    rcases c.element id <;> rfl
  have hevict : ∀ c : LRUCache, c.evict.capacity = c.capacity := by
    intro c
    unfold evict
    rcases c.ll.getLast? <;> rfl
  rcases op with key | ⟨key, value⟩ | key
  · show (c.get key).2.capacity = _
    unfold LRUCache.get
    split
    · rfl
    · exact hmove _
  · show (c.put key value).capacity = _
    unfold LRUCache.put
    split
    · exact hmove _
    · dsimp only
      split_ifs
      · exact hevict _
      · rfl
  · show (c.remove key).capacity = _
    unfold LRUCache.remove
    split <;> rfl

theorem Wf.apply (h : c.Wf) (op : Recency.Op GoString Bytes) : (c.apply op).Wf := by
  rcases op with key | ⟨key, value⟩ | key
  · exact h.get key
  · exact h.put key value
  · exact h.remove key

/-- **One operation is a step of the abstract list.** -/
theorem Wf.keys_apply (h : c.Wf) (hcap : c.capacity = n) (hlen : c.keys.length ≤ n)
    (op : Recency.Op GoString Bytes) : (c.apply op).keys = Recency.step n c.keys op := by
  rcases op with key | ⟨key, value⟩ | key
  · exact h.keys_get n key
  · exact h.keys_put hcap hlen key value
  · exact h.keys_remove n key

/-! ## Runs -/

/-- What holds of a cache of capacity `n` after some operations. -/
structure Refines (n : ℕ) (ops : List (Recency.Op GoString Bytes)) (c : LRUCache) : Prop where
  wf : c.Wf
  capacity : c.capacity = n
  keys : c.keys = Recency.keys n ops
  values : ∀ el ∈ c.ll, Recency.lastPut ops el.key = some el.value

theorem Refines.apply {ops : List (Recency.Op GoString Bytes)} (h : Refines n ops c)
    (op : Recency.Op GoString Bytes) : Refines n (ops ++ [op]) (c.apply op) where
  wf := h.wf.apply op
  capacity := (capacity_apply c op).trans h.capacity
  keys := by
    have hlen : c.keys.length ≤ n := h.keys ▸ Recency.length_keys_le n ops
    rw [h.wf.keys_apply h.capacity hlen, h.keys, Recency.keys_concat]
  values := by
    intro el hel
    rw [Recency.lastPut_concat]
    rcases op with key | ⟨key, value⟩ | key
    · exact h.values el (h.wf.mem_get.mp hel)
    · rcases h.wf.mem_put hel with ⟨hkey, hvalue⟩ | ⟨hkey, el', hel', hkey', hvalue⟩
      · simp [Recency.Op.putFor, hkey, hvalue]
      · rw [← hkey', ← hvalue, h.values el' hel']
        simp [Recency.Op.putFor, hkey', Ne.symm hkey]
    · exact h.values el (h.wf.mem_remove hel).1

theorem refines_run {n : ℕ} (hn : 1 ≤ n) (ops : List (Recency.Op GoString Bytes)) :
    Refines n ops (ops.foldl apply (.new n)) := by
  induction ops using List.reverseRecOn with
  | nil =>
    refine ⟨wf_new n, if_neg (by omega), rfl, fun el hel => ?_⟩
    cases hel
  | append_singleton ops op ih =>
    rw [List.foldl_concat]
    exact ih.apply op

/-- **A look-up** finds an element by its key. -/
theorem Wf.get_of_mem (h : c.Wf) {el : LRUElement} (hel : el ∈ c.ll) :
    (c.get el.key).1 = some el.value := by
  have hid := (h.items_iff el.key el.id).mpr ⟨el, hel, rfl, rfl⟩
  unfold LRUCache.get
  simp only [hid, h.element_eq hel, Option.map_some]

theorem Wf.get_of_not_mem (h : c.Wf) {key : GoString} (hmem : key ∉ c.keys) :
    (c.get key).1 = none := by
  rcases hget : (c.get key).1 with _ | value
  · rfl
  · obtain ⟨el, hel, hkey, -⟩ := h.get_some hget
    exact absurd (List.mem_map.mpr ⟨el, hel, hkey⟩) hmem

/-- **The cache is a least recently used list.** After any operations on a
cache of capacity `n`, the keys of its list are those of the abstract list
in order, each once and `n` at most; the map has the same keys and names
their elements; a key of the list is answered with what was last put for
it, and any other key with a miss. -/
theorem lru_refines (n : ℕ) (hn : 1 ≤ n) (ops : List (Recency.Op GoString Bytes)) :
    let c := ops.foldl apply (.new n)
    c.keys = Recency.keys n ops ∧ c.keys.Nodup ∧ c.keys.length ≤ n ∧ c.items.keys.Perm c.keys ∧
      (∀ el ∈ c.ll, c.items.lookup el.key = some el.id ∧ c.element el.id = some el) ∧
      (∀ key ∈ Recency.keys n ops,
        ∃ value, Recency.lastPut ops key = some value ∧ (c.get key).1 = some value) ∧
      ∀ key ∉ Recency.keys n ops, (c.get key).1 = none := by
  intro c
  have h : Refines n ops c := refines_run hn ops
  have hnodup : c.keys.Nodup := h.keys ▸ Recency.nodup_keys n ops
  refine ⟨h.keys, hnodup, h.keys ▸ Recency.length_keys_le n ops, h.wf.perm_keys hnodup,
    fun el hel => ⟨(h.wf.items_iff _ _).mpr ⟨el, hel, rfl, rfl⟩, h.wf.element_eq hel⟩,
    fun key hkey => ?_, fun key hkey => h.wf.get_of_not_mem (h.keys ▸ hkey)⟩
  rw [← h.keys] at hkey
  obtain ⟨el, hel, rfl⟩ := List.mem_map.mp hkey
  exact ⟨el.value, h.values el hel, h.wf.get_of_mem hel⟩

/-- In a cache of two, the key that was looked up outlives the other. -/
theorem lru_refines_two :
    let c := [.put [97] [1], .put [98] [2], .get [97], .put [99] [3]].foldl apply (.new (2 : ℕ))
    c.keys = [[99], [97]] ∧ (c.get [98]).1 = none := by
  obtain ⟨hkeys, -, -, -, -, -, hmiss⟩ := lru_refines 2 (by decide)
    [.put [97] [1], .put [98] [2], .get [97], .put [99] [3]]
  exact ⟨hkeys, hmiss [98] (by decide)⟩

end LRUCache

end Metastore

end TftAnalytics

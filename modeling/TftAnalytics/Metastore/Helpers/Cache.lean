import TftAnalytics.Metastore.Model.Cache
import Mathlib.Data.List.Nodup
/-!
# Metastore — the cache returns what was put

Helper layer. The map of the cache names exactly the elements of the
recency list (`LRUCache.Wf`), and every operation keeps that. What the
cache holds grows only by a put, and a removed key is gone.
-/

namespace TftAnalytics

namespace Metastore

namespace LRUCache

/-- **The map and the list agree**: the map names the elements of the list,
by key, and elements have identities of their own. -/
structure Wf (c : LRUCache) : Prop where
  ids_nodup : (c.ll.map (·.id)).Nodup
  ids_lt : ∀ el ∈ c.ll, el.id < c.next
  items_iff : ∀ key id, c.items.lookup key = some id ↔ ∃ el ∈ c.ll, el.key = key ∧ el.id = id

variable {c : LRUCache}

theorem wf_new (capacity : ℤ) : (new capacity).Wf where
  ids_nodup := by simp [new]
  ids_lt := by simp [new]
  items_iff := by simp [new]

/-- Elements are known by their identity. -/
theorem Wf.eq_of_id (h : c.Wf) {el el' : LRUElement} (hel : el ∈ c.ll) (hel' : el' ∈ c.ll)
    (hid : el.id = el'.id) : el = el' := List.inj_on_of_nodup_map h.ids_nodup hel hel' hid

/-- And by their key. -/
theorem Wf.eq_of_key (h : c.Wf) {el el' : LRUElement} (hel : el ∈ c.ll) (hel' : el' ∈ c.ll)
    (hkey : el.key = el'.key) : el = el' := by
  have hl := (h.items_iff el.key el.id).mpr ⟨el, hel, rfl, rfl⟩
  have hl' := (h.items_iff el'.key el'.id).mpr ⟨el', hel', rfl, rfl⟩
  rw [hkey, hl', Option.some.injEq] at hl
  exact h.eq_of_id hel hel' hl.symm

theorem Wf.element_eq (h : c.Wf) {el : LRUElement} (hel : el ∈ c.ll) :
    c.element el.id = some el := by
  cases hf : c.element el.id with
  | none =>
    rw [element, List.find?_eq_none] at hf
    exact absurd (decide_eq_true rfl) (hf el hel)
  | some el' =>
    have hid : el'.id = el.id := by simpa using List.find?_some hf
    rw [h.eq_of_id (List.mem_of_find?_eq_some hf) hel hid]

theorem mem_of_element {id : ℕ} {el : LRUElement} (h : c.element id = some el) : el ∈ c.ll :=
  List.mem_of_find?_eq_some h

/-- Moving an element to the front reorders the list. -/
theorem Wf.perm_moveToFront (h : c.Wf) (id : ℕ) : (c.moveToFront id).ll.Perm c.ll := by
  unfold moveToFront
  cases hf : c.element id with
  | none => exact List.Perm.refl _
  | some el =>
    have hel := mem_of_element hf
    have hid : el.id = id := by simpa using List.find?_some hf
    have hnodup : c.ll.Nodup := List.Nodup.of_map _ h.ids_nodup
    have hfilter : c.ll.filter (fun e => e.id ≠ id) = c.ll.erase el := by
      rw [hnodup.erase_eq_filter]
      refine List.filter_congr fun e he => ?_
      have hiff : e.id ≠ id ↔ e ≠ el :=
        ⟨fun hne heq => hne (heq ▸ hid),
          fun hne heq => hne (h.eq_of_id he hel (heq.trans hid.symm))⟩
      by_cases heq : e = el <;> simp [hiff, heq, hid]
    simp only [hfilter]
    exact (List.perm_cons_erase hel).symm

/-- Well-formedness looks at the list as a set of elements. -/
theorem Wf.of_perm (h : c.Wf) {ll : List LRUElement} (hp : ll.Perm c.ll) :
    Wf { c with ll := ll } where
  ids_nodup := (hp.map _).nodup_iff.mpr h.ids_nodup
  ids_lt := fun el hel => h.ids_lt el (hp.mem_iff.mp hel)
  items_iff := by
    intro key id
    simp only [h.items_iff, hp.mem_iff]

@[simp] theorem moveToFront_items (c : LRUCache) (id : ℕ) :
    (c.moveToFront id).items = c.items := by
  unfold moveToFront
  cases c.element id <;> rfl

@[simp] theorem moveToFront_next (c : LRUCache) (id : ℕ) : (c.moveToFront id).next = c.next := by
  unfold moveToFront
  cases c.element id <;> rfl

theorem Wf.moveToFront (h : c.Wf) (id : ℕ) : (c.moveToFront id).Wf where
  ids_nodup := (h.of_perm (h.perm_moveToFront id)).ids_nodup
  ids_lt := by simpa using (h.of_perm (h.perm_moveToFront id)).ids_lt
  items_iff := by simpa using (h.of_perm (h.perm_moveToFront id)).items_iff

/-- Dropping an element of the list and its key. -/
theorem Wf.drop (h : c.Wf) {el : LRUElement} (hel : el ∈ c.ll) : (c.drop el).Wf where
  ids_nodup := h.ids_nodup.sublist (List.filter_sublist.map _)
  ids_lt := fun e he => h.ids_lt e (List.mem_of_mem_filter he)
  items_iff := by
    intro key id
    by_cases hkey : key = el.key
    · subst hkey
      simp only [LRUCache.drop, AList.lookup_erase, reduceCtorEq, false_iff, List.mem_filter]
      rintro ⟨e, ⟨he, hid⟩, hk, -⟩
      rw [h.eq_of_key he hel hk] at hid
      simp at hid
    · simp only [LRUCache.drop, AList.lookup_erase_ne hkey, h.items_iff, List.mem_filter]
      refine ⟨?_, fun ⟨e, ⟨he, _⟩, hk⟩ => ⟨e, he, hk⟩⟩
      rintro ⟨e, he, rfl, rfl⟩
      refine ⟨e, ⟨he, ?_⟩, rfl, rfl⟩
      simp only [ne_eq, decide_not, Bool.not_eq_true', decide_eq_false_iff_not]
      exact fun hid => hkey (by rw [h.eq_of_id he hel hid])

theorem Wf.evict (h : c.Wf) : c.evict.Wf := by
  unfold LRUCache.evict
  cases hl : c.ll.getLast? with
  | none => exact h
  | some el => exact h.drop (List.mem_of_getLast? hl)

theorem mem_evict {el : LRUElement} (h : el ∈ c.evict.ll) : el ∈ c.ll := by
  unfold LRUCache.evict at h
  cases hl : c.ll.getLast? with
  | none =>
    simp only [hl] at h
    exact h
  | some last =>
    simp only [hl] at h
    exact List.mem_of_mem_filter h

/-! ## The operations -/

/-- **A hit returns the value of an element with that key.** -/
theorem Wf.get_some (h : c.Wf) {key : GoString} {value : Bytes}
    (hget : (c.get key).1 = some value) : ∃ el ∈ c.ll, el.key = key ∧ el.value = value := by
  unfold LRUCache.get at hget
  cases hl : c.items.lookup key with
  | none => simp [hl] at hget
  | some id =>
    obtain ⟨el, hel, hkey, hid⟩ := (h.items_iff key id).mp hl
    simp only [hl, ← hid, h.element_eq hel, Option.map_some, Option.some.injEq] at hget
    exact ⟨el, hel, hkey, hget⟩

theorem Wf.get (h : c.Wf) (key : GoString) : (c.get key).2.Wf := by
  unfold LRUCache.get
  cases c.items.lookup key with
  | none => exact h
  | some id => exact h.moveToFront id

/-- A look at the cache changes nothing it holds. -/
theorem Wf.mem_get (h : c.Wf) {key : GoString} {el : LRUElement} :
    el ∈ (c.get key).2.ll ↔ el ∈ c.ll := by
  unfold LRUCache.get
  cases c.items.lookup key with
  | none => rfl
  | some id => exact (h.perm_moveToFront id).mem_iff

/-- Changing the value of an element changes no key and no identity. -/
theorem Wf.setValue (h : c.Wf) (id : ℕ) (value : Bytes) :
    Wf { c with
      ll := c.ll.map fun el => if el.id = id then { el with value := value } else el } where
  ids_nodup := by
    have hids : ((c.ll.map fun el => if el.id = id then { el with value := value } else el).map
        (·.id)) = c.ll.map (·.id) := by
      rw [List.map_map]
      refine List.map_congr_left fun el _ => ?_
      simp only [Function.comp_apply]
      split_ifs <;> rfl
    simpa only [hids] using h.ids_nodup
  ids_lt := by
    intro el hel
    obtain ⟨el', hel', rfl⟩ := List.mem_map.mp hel
    have := h.ids_lt el' hel'
    split_ifs <;> exact this
  items_iff := by
    intro key id'
    rw [h.items_iff]
    constructor
    · rintro ⟨el, hel, rfl, rfl⟩
      refine ⟨_, List.mem_map.mpr ⟨el, hel, rfl⟩, ?_⟩
      split_ifs <;> exact ⟨rfl, rfl⟩
    · rintro ⟨el, hel, rfl, rfl⟩
      obtain ⟨el', hel', rfl⟩ := List.mem_map.mp hel
      refine ⟨el', hel', ?_⟩
      split_ifs <;> exact ⟨rfl, rfl⟩

/-- A new key gets a new element in front. -/
theorem Wf.push (h : c.Wf) {key : GoString} (hkey : c.items.lookup key = none) (value : Bytes) :
    Wf { c with
      ll := ⟨c.next, key, value⟩ :: c.ll
      items := c.items.insert key c.next
      next := c.next + 1 } where
  ids_nodup := by
    simp only [List.map_cons, List.nodup_cons, List.mem_map, not_exists, not_and]
    exact ⟨fun el hel => (h.ids_lt el hel).ne, h.ids_nodup⟩
  ids_lt := by
    simp only [List.mem_cons, forall_eq_or_imp, lt_add_iff_pos_right, Nat.lt_one_iff, true_and]
    exact fun el hel => Nat.lt_succ_of_lt (h.ids_lt el hel)
  items_iff := by
    intro key' id
    by_cases hk : key' = key
    · subst hk
      simp only [AList.lookup_insert, Option.some.injEq, List.mem_cons, exists_eq_or_imp, true_and]
      refine ⟨Or.inl, fun hor => hor.resolve_right fun ⟨el, hel, hk, _⟩ => ?_⟩
      have := (h.items_iff key' el.id).mpr ⟨el, hel, hk, rfl⟩
      rw [hkey] at this
      exact absurd this (by simp)
    · simp only [AList.lookup_insert_ne hk, h.items_iff, List.mem_cons, exists_eq_or_imp]
      refine ⟨Or.inr, fun hor => hor.resolve_left fun hnew => hk hnew.1.symm⟩

theorem Wf.put (h : c.Wf) (key : GoString) (value : Bytes) : (c.put key value).Wf := by
  unfold LRUCache.put
  cases hl : c.items.lookup key with
  | none =>
    have hpush := h.push hl value
    simp only
    split_ifs
    · exact hpush.evict
    · exact hpush
  | some id => exact (h.moveToFront id).setValue id value

/-- **What the cache holds after a put** is what was put, or for another key
what it held before. -/
theorem Wf.mem_put (h : c.Wf) {key : GoString} {value : Bytes} {el : LRUElement}
    (hel : el ∈ (c.put key value).ll) :
    el.key = key ∧ el.value = value ∨
      el.key ≠ key ∧ ∃ el' ∈ c.ll, el'.key = el.key ∧ el'.value = el.value := by
  unfold LRUCache.put at hel
  cases hl : c.items.lookup key with
  | none =>
    simp only [hl] at hel
    have hmem : el ∈ (⟨c.next, key, value⟩ : LRUElement) :: c.ll := by
      split_ifs at hel
      · exact mem_evict hel
      · exact hel
    rcases List.mem_cons.mp hmem with rfl | hold
    · exact Or.inl ⟨rfl, rfl⟩
    · refine Or.inr ⟨fun hkey => ?_, el, hold, rfl, rfl⟩
      have hnamed := (h.items_iff key el.id).mpr ⟨el, hold, hkey, rfl⟩
      rw [hl] at hnamed
      cases hnamed
  | some id =>
    obtain ⟨found, hfound, hkey, hid⟩ := (h.items_iff key id).mp hl
    simp only [hl] at hel
    obtain ⟨el', hel', rfl⟩ := List.mem_map.mp hel
    have hold : el' ∈ c.ll := (h.perm_moveToFront id).mem_iff.mp hel'
    by_cases hid' : el'.id = id
    · obtain rfl := h.eq_of_id hold hfound (hid'.trans hid.symm)
      rw [if_pos hid']
      exact Or.inl ⟨hkey, rfl⟩
    · rw [if_neg hid']
      refine Or.inr ⟨fun hkey' => hid' ?_, el', hold, rfl, rfl⟩
      rw [h.eq_of_key hold hfound (hkey'.trans hkey.symm), hid]

theorem remove_eq_drop {key : GoString} {el : LRUElement} (hkey : el.key = key)
    (hl : c.items.lookup key = some el.id) : c.remove key = c.drop el := by
  subst hkey
  rw [LRUCache.remove, hl]
  rfl

theorem Wf.remove (h : c.Wf) (key : GoString) : (c.remove key).Wf := by
  cases hl : c.items.lookup key with
  | none =>
    rw [LRUCache.remove, hl]
    exact h
  | some id =>
    obtain ⟨el, hel, hkey, rfl⟩ := (h.items_iff key id).mp hl
    rw [remove_eq_drop hkey hl]
    exact h.drop hel

/-- **A removed key is gone**, and nothing else is added. -/
theorem Wf.mem_remove (h : c.Wf) {key : GoString} {el : LRUElement}
    (hel : el ∈ (c.remove key).ll) : el ∈ c.ll ∧ el.key ≠ key := by
  cases hl : c.items.lookup key with
  | none =>
    rw [LRUCache.remove, hl] at hel
    refine ⟨hel, fun hkey => ?_⟩
    have := (h.items_iff key el.id).mpr ⟨el, hel, hkey, rfl⟩
    rw [hl] at this
    exact absurd this (by simp)
  | some id =>
    obtain ⟨found, hfound, hkey, rfl⟩ := (h.items_iff key id).mp hl
    rw [remove_eq_drop hkey hl, LRUCache.drop, List.mem_filter] at hel
    refine ⟨hel.1, fun hk => ?_⟩
    rw [h.eq_of_key hel.1 hfound (hk.trans hkey.symm)] at hel
    simp at hel

end LRUCache

end Metastore

end TftAnalytics

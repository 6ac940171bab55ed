import TftAnalytics.Common.Dict
import Mathlib.Data.List.Dedup
import Mathlib.Data.List.Perm.Basic
import Mathlib.Data.List.Induction
/-!
# Common — grouping by key

A dictionary that is filled pair by pair holds, under every key that
occurs, what the values under that key amount to, whatever comes between
them. Which pairs come first shows in the order of the keys alone.
-/

namespace TftAnalytics

variable {κ α β : Type} [DecidableEq κ]

/-- The values under a key. -/
def valuesAt (pairs : List (κ × β)) (key : κ) : List β :=
  (pairs.filter fun p => p.1 = key).map Prod.snd

/-- A dictionary filled with pairs, one after another. -/
def gather (fresh : α) (f : α → β → α) (pairs : List (κ × β)) (dict : List (κ × α)) :
    List (κ × α) :=
  pairs.foldl (fun dict p => upsert fresh (fun x => f x p.2) p.1 dict) dict

@[simp] theorem valuesAt_nil (key : κ) : valuesAt ([] : List (κ × β)) key = [] := rfl

@[simp] theorem valuesAt_append (ps qs : List (κ × β)) (key : κ) :
    valuesAt (ps ++ qs) key = valuesAt ps key ++ valuesAt qs key := by
  simp [valuesAt]

theorem valuesAt_singleton (p : κ × β) (key : κ) :
    valuesAt [p] key = if p.1 = key then [p.2] else [] := by
  by_cases h : p.1 = key <;> simp [valuesAt, h]

theorem valuesAt_cons (p : κ × β) (ps : List (κ × β)) (key : κ) :
    valuesAt (p :: ps) key = (if p.1 = key then [p.2] else []) ++ valuesAt ps key := by
  rw [← valuesAt_singleton, ← valuesAt_append, List.singleton_append]

theorem valuesAt_perm {ps qs : List (κ × β)} (h : ps.Perm qs) (key : κ) :
    (valuesAt ps key).Perm (valuesAt qs key) :=
  (h.filter _).map _

/-- The values that are sent to a key. -/
theorem valuesAt_map_key (f : β → κ) (xs : List β) (key : κ) :
    valuesAt (xs.map fun x => (f x, x)) key = xs.filter fun x => f x = key := by
  unfold valuesAt
  rw [List.filter_map, List.map_map]
  exact List.map_id' _

/-- As many values as the key has pairs. -/
theorem length_valuesAt (pairs : List (κ × β)) (key : κ) :
    (valuesAt pairs key).length = (pairs.map Prod.fst).count key := by
  rw [valuesAt, List.length_map, List.count, List.countP_map, List.countP_eq_length_filter]
  rfl

theorem valuesAt_of_not_mem {pairs : List (κ × β)} {key : κ} (h : key ∉ pairs.map Prod.fst) :
    valuesAt pairs key = [] := by
  rw [← List.length_eq_zero_iff, length_valuesAt, List.count_eq_zero]
  exact h

theorem gather_append (fresh : α) (f : α → β → α) (ps qs : List (κ × β)) (dict : List (κ × α)) :
    gather fresh f (ps ++ qs) dict = gather fresh f qs (gather fresh f ps dict) :=
  List.foldl_append ..

theorem lookup_cons_if (k key : κ) (x : α) (dict : List (κ × α)) :
    ((k, x) :: dict).lookup key = if key = k then some x else dict.lookup key := by
  rw [List.lookup_cons]
  by_cases h : key = k
  · simp [h]
  · rw [beq_false_of_ne h, if_neg h]

/-- A map of the values is a map of what is looked up. -/
theorem lookup_map_snd (f : α → β) (dict : List (κ × α)) (key : κ) :
    (dict.map fun e => (e.1, f e.2)).lookup key = (dict.lookup key).map f := by
  induction dict with
  | nil => rfl
  | cons e dict ih =>
    obtain ⟨k, x⟩ := e
    rw [List.map_cons, lookup_cons_if, lookup_cons_if, ih]
    split_ifs <;> rfl

/-- A change under one key is seen under that key alone. -/
theorem lookup_upsert (fresh : α) (f : α → α) (key k : κ) (dict : List (κ × α)) :
    (upsert fresh f key dict).lookup k
      = if k = key then some (f ((dict.lookup key).getD fresh)) else dict.lookup k := by
  induction dict with
  | nil => exact lookup_cons_if ..
  | cons p dict ih =>
    obtain ⟨k', x⟩ := p
    rw [upsert]
    by_cases hk' : k' = key
    · subst hk'
      rw [if_pos rfl, lookup_cons_if, lookup_cons_if, lookup_cons_if, if_pos rfl]
      split_ifs <;> rfl
    · rw [if_neg hk', lookup_cons_if, lookup_cons_if, lookup_cons_if, ih, if_neg (Ne.symm hk')]
      by_cases h : k = k'
      · rw [if_pos h, if_neg (h ▸ hk'), if_pos h]
      · rw [if_neg h, if_neg h]

theorem held_upsert (fresh : α) (f : α → α) (key k : κ) (dict : List (κ × α)) :
    held fresh (upsert fresh f key dict) k
      = if key = k then f (held fresh dict k) else held fresh dict k := by
  unfold held
  rw [lookup_upsert]
  by_cases h : k = key
  · subst h
    rw [if_pos rfl, if_pos rfl]
    rfl
  · rw [if_neg h, if_neg (Ne.symm h)]

/-- A change leaves the entries of other keys. -/
theorem filter_upsert_ne (fresh : α) (f : α → α) (key : κ) (dict : List (κ × α)) :
    (upsert fresh f key dict).filter (fun p => p.1 ≠ key) = dict.filter fun p => p.1 ≠ key := by
  induction dict with
  | nil => simp [upsert]
  | cons p dict ih =>
    obtain ⟨k, x⟩ := p
    rw [upsert]
    by_cases hk : k = key
    · simp [hk]
    · rw [if_neg hk, List.filter_cons, List.filter_cons, ih]

/-- And there is one entry for its key. -/
theorem filter_upsert_self (fresh : α) (f : α → α) {key : κ} {dict : List (κ × α)}
    (hnodup : (dict.map Prod.fst).Nodup) :
    (upsert fresh f key dict).filter (fun p => p.1 = key) = [(key, f (held fresh dict key))] := by
  unfold held
  induction dict with
  | nil => simp [upsert]
  | cons p dict ih =>
    obtain ⟨k, x⟩ := p
    rw [List.map_cons, List.nodup_cons] at hnodup
    rw [upsert, lookup_cons_if]
    by_cases hk : k = key
    · subst hk
      have hrest : dict.filter (fun p => p.1 = k) = [] :=
        List.filter_eq_nil_iff.mpr fun p hp => by
          simpa using fun hpk : p.1 = k => hnodup.1 (List.mem_map.mpr ⟨p, hp, hpk⟩)
      rw [if_pos rfl, if_pos rfl, List.filter_cons_of_pos (by simp), hrest, Option.getD_some]
    · rw [if_neg hk, if_neg (Ne.symm hk), List.filter_cons_of_neg (by simpa using hk),
        ih hnodup.2]

theorem held_of_not_mem (fresh : α) {key : κ} {dict : List (κ × α)}
    (h : key ∉ dict.map Prod.fst) : held fresh dict key = fresh := by
  have hnone : dict.lookup key = none := by
    rw [List.lookup_eq_none_iff]
    intro p hp
    simpa using fun hk : key = p.1 => h (List.mem_map.mpr ⟨p, hp, hk.symm⟩)
  rw [held, hnone, Option.getD_none]

/-- A missing key comes in at the end. -/
theorem upsert_of_not_mem (fresh : α) (f : α → α) {key : κ} {dict : List (κ × α)}
    (h : key ∉ dict.map Prod.fst) : upsert fresh f key dict = dict ++ [(key, f fresh)] := by
  induction dict with
  | nil => rfl
  | cons p dict ih =>
    obtain ⟨k, x⟩ := p
    rw [List.map_cons, List.mem_cons, not_or] at h
    rw [upsert, if_neg (Ne.symm h.1), ih h.2, List.cons_append]

/-- Where it is found the next time. -/
theorem upsert_concat (fresh : α) (f : α → α) {key : κ} {dict : List (κ × α)}
    (h : key ∉ dict.map Prod.fst) (x : α) :
    upsert fresh f key (dict ++ [(key, x)]) = dict ++ [(key, f x)] := by
  induction dict with
  | nil => simp [upsert]
  | cons p dict ih =>
    obtain ⟨k, y⟩ := p
    rw [List.map_cons, List.mem_cons, not_or] at h
    rw [List.cons_append, upsert, if_neg (Ne.symm h.1), ih h.2, List.cons_append]

/-- **What a key amounts to**, in a dictionary filled from empty. -/
theorem lookup_gather (fresh : α) (f : α → β → α) (pairs : List (κ × β)) (key : κ) :
    (gather fresh f pairs []).lookup key
      = if key ∈ pairs.map Prod.fst then some ((valuesAt pairs key).foldl f fresh) else none := by
  induction pairs using List.reverseRecOn with
  | nil => rfl
  | append_singleton ps p ih =>
    have hlast : gather fresh f (ps ++ [p]) []
        = upsert fresh (fun x => f x p.2) p.1 (gather fresh f ps []) := gather_append ..
    rw [hlast, lookup_upsert, valuesAt_append, valuesAt_singleton]
    by_cases hkey : key = p.1
    · subst hkey
      -- the value so far is that of the pairs before, or fresh
      have hsofar : ((gather fresh f ps []).lookup p.1).getD fresh
          = (valuesAt ps p.1).foldl f fresh := by
        rw [ih]
        split_ifs with hmem
        · rfl
        · rw [valuesAt_of_not_mem hmem]
          rfl
      rw [if_pos rfl, if_pos rfl, hsofar, if_pos (by simp), List.foldl_append]
      rfl
    · have hmem : key ∈ (ps ++ [p]).map Prod.fst ↔ key ∈ ps.map Prod.fst := by
        rw [List.map_append, List.mem_append, List.map_singleton, List.mem_singleton,
          or_iff_left hkey]
      rw [if_neg hkey, ih, if_neg (Ne.symm hkey), List.append_nil]
      simp only [hmem]

/-- With a default the keys that occur do not matter, and the dictionary
may have something under them already. -/
theorem held_gather_from (fresh : α) (f : α → β → α) (pairs : List (κ × β)) (dict : List (κ × α))
    (key : κ) :
    held fresh (gather fresh f pairs dict) key
      = (valuesAt pairs key).foldl f (held fresh dict key) := by
  induction pairs using List.reverseRecOn with
  | nil => rfl
  | append_singleton ps p ih =>
    have hlast : gather fresh f (ps ++ [p]) dict
        = upsert fresh (fun x => f x p.2) p.1 (gather fresh f ps dict) := gather_append ..
    rw [hlast, held_upsert, ih, valuesAt_append, valuesAt_singleton, List.foldl_append]
    split_ifs <;> rfl

theorem held_gather (fresh : α) (f : α → β → α) (pairs : List (κ × β)) (key : κ) :
    held fresh (gather fresh f pairs []) key = (valuesAt pairs key).foldl f fresh :=
  held_gather_from fresh f pairs [] key

/-- No key comes in where all are there. -/
theorem keys_gather_from (fresh : α) (f : α → β → α) {pairs : List (κ × β)}
    {dict : List (κ × α)} (h : ∀ p ∈ pairs, p.1 ∈ dict.map Prod.fst) :
    (gather fresh f pairs dict).map Prod.fst = dict.map Prod.fst := by
  induction pairs using List.reverseRecOn with
  | nil => rfl
  | append_singleton ps p ih =>
    have hlast : gather fresh f (ps ++ [p]) dict
        = upsert fresh (fun x => f x p.2) p.1 (gather fresh f ps dict) := gather_append ..
    have ih := ih fun q hq => h q (List.mem_append_left _ hq)
    rw [hlast, keys_upsert, ih, if_pos (h p (by simp))]

/-- Entries that hold the default may be dropped. -/
theorem held_filter {fresh : α} {dict : List (κ × α)} (hnodup : (dict.map Prod.fst).Nodup)
    {q : α → Bool} (hq : ∀ x, q x = false → x = fresh) (key : κ) :
    held fresh (dict.filter fun p => q p.2) key = held fresh dict key := by
  unfold held
  induction dict with
  | nil => rfl
  | cons p dict ih =>
    obtain ⟨k, x⟩ := p
    rw [List.map_cons, List.nodup_cons] at hnodup
    have ih := ih hnodup.2
    rw [List.filter_cons, lookup_cons_if]
    by_cases hx : q x = true
    · rw [if_pos hx, lookup_cons_if]
      split_ifs
      · rfl
      · exact ih
    · rw [if_neg hx, ih]
      split_ifs with hk
      · -- the key is not behind the entry that is dropped
        subst hk
        exact (held_of_not_mem fresh hnodup.1).trans (hq x (by simpa using hx)).symm
      · rfl

theorem nodup_keys_upsert (fresh : α) (f : α → α) (key : κ) {dict : List (κ × α)}
    (h : (dict.map Prod.fst).Nodup) : ((upsert fresh f key dict).map Prod.fst).Nodup := by
  rw [keys_upsert]
  split_ifs with hmem
  · exact h
  · exact List.nodup_append'.mpr ⟨h, List.nodup_singleton _, by simpa using hmem⟩

theorem nodup_keys_gather (fresh : α) (f : α → β → α) (pairs : List (κ × β)) :
    ((gather fresh f pairs []).map Prod.fst).Nodup := by
  induction pairs using List.reverseRecOn with
  | nil => exact List.nodup_nil
  | append_singleton ps p ih =>
    have hlast : gather fresh f (ps ++ [p]) []
        = upsert fresh (fun x => f x p.2) p.1 (gather fresh f ps []) := gather_append ..
    rw [hlast]
    exact nodup_keys_upsert _ _ _ ih

/-- In a dictionary, an entry is what its key is looked up to. -/
theorem mem_iff_lookup {dict : List (κ × α)} (h : (dict.map Prod.fst).Nodup) {key : κ} {x : α} :
    (key, x) ∈ dict ↔ dict.lookup key = some x := by
  induction dict with
  | nil => simp
  | cons p dict ih =>
    obtain ⟨k, y⟩ := p
    rw [List.map_cons, List.nodup_cons] at h
    rw [List.mem_cons, lookup_cons_if, Prod.mk.injEq]
    by_cases hk : key = k
    · subst hk
      have hnot : (key, x) ∉ dict := fun hmem =>
        h.1 (List.mem_map.mpr ⟨(key, x), hmem, rfl⟩)
      simp [hnot, eq_comm]
    · rw [if_neg hk, ← ih h.2]
      simp [hk]

/-- **One entry for each key that occurs**, up to the order of the keys. -/
theorem gather_perm (fresh : α) (f : α → β → α) (pairs : List (κ × β)) :
    (gather fresh f pairs []).Perm
      ((pairs.map Prod.fst).dedup.map fun key => (key, (valuesAt pairs key).foldl f fresh)) := by
  have hnodup := nodup_keys_gather fresh f pairs
  refine (List.perm_ext_iff_of_nodup hnodup.of_map ?_).mpr ?_
  · refine (List.nodup_dedup _).map fun k k' h => (Prod.mk.inj h).1
  · rintro ⟨key, x⟩
    rw [mem_iff_lookup hnodup, lookup_gather]
    simp only [List.mem_map, List.mem_dedup, Prod.mk.injEq]
    constructor
    · intro h
      split_ifs at h with hmem
      exact ⟨key, by simpa using hmem, rfl, Option.some.inj h⟩
    · rintro ⟨k, hmem, rfl, rfl⟩
      rw [if_pos (by simpa using hmem)]

/-- Values collected one by one are all the values. -/
theorem foldl_concat (xs : List β) : xs.foldl (fun l x => l ++ [x]) [] = xs := by
  induction xs using List.reverseRecOn with
  | nil => rfl
  | append_singleton xs x ih => rw [List.foldl_append, ih, List.foldl_cons, List.foldl_nil]

/-- And values counted one by one are as many as there are. -/
theorem foldl_succ (xs : List β) : xs.foldl (fun n _ => n + 1) 0 = xs.length := by
  induction xs using List.reverseRecOn with
  | nil => rfl
  | append_singleton xs x ih =>
    rw [List.foldl_append, ih, List.foldl_cons, List.foldl_nil, List.length_append]
    rfl

end TftAnalytics

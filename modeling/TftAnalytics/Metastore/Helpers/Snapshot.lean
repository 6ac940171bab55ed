import TftAnalytics.Metastore.Model.Snapshot
import TftAnalytics.Metastore.Helpers.Rings
import TftAnalytics.Metastore.Helpers.Table
/-!
# Metastore — what a scan and a read select

Helper layer. A map of merged entries is read key by key: a node's scan
offers at most one version of a key, and the coordinator folds `pickNewer`
over its own version and the decayed ones of its peers. A read folds it
over the answers of the first owners, as many as the quorum needs and on
until there is a value.
-/

namespace TftAnalytics

namespace Metastore

/-! ## Merged entries -/

/-- A map of entries under their own keys. -/
def Keyed (m : AList fun _ : GoString => StatEntry) : Prop :=
  ∀ key, ∀ e ∈ m.lookup key, entryKey e = key

theorem keyed_empty : Keyed ∅ := by
  intro key e he
  simp at he

theorem Keyed.mergeEntry {m : AList fun _ : GoString => StatEntry} (h : Keyed m) (e : StatEntry) :
    Keyed (mergeEntry m e) := by
  intro key x hx
  have hfold := lookup_foldl_mergeEntry [e] m key
  rw [List.foldl_cons, List.foldl_nil] at hfold
  rw [hfold] at hx
  by_cases hk : entryKey e = key
  · simp only [hk, decide_true, List.filter_cons_of_pos, List.filter_nil, List.foldl_cons,
      List.foldl_nil] at hx
    cases hm : m.lookup key with
    | none =>
      rw [hm] at hx
      obtain rfl : e = x := by simpa [pickNewer] using hx
      exact hk
    | some e' =>
      rw [hm] at hx
      obtain rfl : newerOf e' e = x := by simpa [pickNewer] using hx
      rcases newerOf_choice e' e with hp | hp <;> rw [hp]
      · exact h key e' hm
      · exact hk
  · simp only [hk, decide_false, Bool.false_eq_true, not_false_eq_true, List.filter_cons_of_neg,
      List.filter_nil, List.foldl_nil] at hx
    exact h key x hx

theorem Keyed.foldl {m : AList fun _ : GoString => StatEntry} (h : Keyed m)
    (es : List StatEntry) : Keyed (es.foldl Metastore.mergeEntry m) :=
  List.foldlRecOn es _ h fun _ hm e _ => hm.mergeEntry e

/-- The values of such a map that have a key are the one it holds for it. -/
theorem Keyed.filter_values {m : AList fun _ : GoString => StatEntry} (h : Keyed m)
    (key : GoString) :
    (m.entries.map (·.2)).filter (fun e => entryKey e = key) = (m.lookup key).toList := by
  -- over the entries of the map, whose keys are all different
  have hvalues : ∀ l : List (Sigma fun _ : GoString => StatEntry), (l.map (·.1)).Nodup →
      (∀ p ∈ l, entryKey p.2 = p.1) →
      (l.map (·.2)).filter (fun e => entryKey e = key) = (l.dlookup key).toList := by
    intro l
    induction l with
    | nil => intro _ _; rfl
    | cons p l ih =>
      intro hnodup hkeys
      obtain ⟨hp, hl⟩ := List.forall_mem_cons.mp hkeys
      obtain ⟨hnotin, hnodup⟩ := List.nodup_cons.mp hnodup
      have ih := ih hnodup hl
      obtain ⟨k, e⟩ := p
      simp only at hp hnotin
      rw [List.map_cons, List.filter_cons]
      by_cases hk : key = k
      · subst hk
        have hnone : l.dlookup key = none := List.dlookup_eq_none.mpr hnotin
        rw [hnone] at ih
        rw [if_pos (by simp [hp]), ih, List.dlookup_cons_eq]
        rfl
      · rw [if_neg (by simp [hp, Ne.symm hk]), ih, List.dlookup_cons_ne _ _ hk]
  refine hvalues m.entries m.nodupKeys fun p hp => ?_
  exact h p.1 p.2 (AList.mem_lookup_iff.mpr hp)

/-- A reordering of at most one element changes nothing. -/
theorem perm_toList {α : Type} {l : List α} {o : Option α} (h : l.Perm o.toList) :
    l = o.toList := by
  cases o with
  | none => exact List.perm_nil.mp h
  | some a => exact List.perm_singleton.mp h

theorem keyed_scan (t : LSMTree) (c : Codec) (keep : StatEntry → Bool) :
    Keyed (t.scan c keep) := by
  have htables : ∀ (tables : List SSTable) (m : AList fun _ : GoString => StatEntry), Keyed m →
      Keyed (tables.foldl
        (fun m sst => ((sst.scan c keep).getD []).foldl Metastore.mergeEntry m) m) :=
    fun tables _ hm => List.foldlRecOn tables _ hm fun _ hm _ _ => hm.foldl _
  exact List.foldlRecOn t.levels _ ((keyed_empty.foldl _).foldl _)
    fun m hm tables _ => htables tables m hm

namespace Snapshot

variable (s : Snapshot) (nd : Node) (req : ScanRequest)

/-- The version of a key that a node's scan finds. -/
def version (key : GoString) : Option StatEntry :=
  (nd.lsm.store.tree.scan s.env.codec (scanPredicate req)).lookup key

/-- And a peer's, if the peer is up. -/
def peerVersion (key peer : GoString) : Option StatEntry :=
  (s.nodes peer).bind fun nd => s.version nd req key

/-- Decay keeps an entry under its key. -/
@[simp] theorem entryKey_decay (e : StatEntry) : entryKey (s.decay nd e) = entryKey e := by
  unfold decay applyDecay
  split <;> rfl

variable {s nd req}

/-- What a node's tree finds, merged once more. -/
theorem lookup_local (key : GoString) :
    ((s.lsmScan nd req).foldl mergeEntry ∅).lookup key = s.version nd req key := by
  rw [lookup_foldl_mergeEntry]
  have hfilter : (s.lsmScan nd req).filter (fun e => entryKey e = key)
      = (s.version nd req key).toList := by
    refine perm_toList ?_
    unfold version
    rw [← (keyed_scan _ _ _).filter_values]
    exact ((s.order nd.self).perm _).filter _
  rw [hfilter, AList.lookup_empty]
  cases s.version nd req key <;> rfl

/-- **A reply with no limit** holds the merged entries, decayed. -/
theorem filter_reply (hlimit : req.limit ≤ 0) {m : AList fun _ : GoString => StatEntry}
    (hm : Keyed m) (key : GoString) :
    (s.reply nd req m).filter (fun e => entryKey e = key)
      = ((m.lookup key).map (s.decay nd)).toList := by
  refine perm_toList ?_
  unfold reply
  simp only
  rw [if_neg (by omega), List.filter_map]
  have hcomp : ((fun e => decide (entryKey e = key)) ∘ s.decay nd)
      = fun e => decide (entryKey e = key) := by
    funext e
    simp
  have hperm := (((s.order nd.self).perm (m.entries.map (·.2))).filter
    fun e => decide (entryKey e = key)).map (s.decay nd)
  rw [hm.filter_values] at hperm
  rw [hcomp]
  cases hl : m.lookup key with
  | none => rw [hl] at hperm; exact hperm
  | some e => rw [hl] at hperm; exact hperm

theorem mem_reply (hlimit : req.limit ≤ 0) {m : AList fun _ : GoString => StatEntry}
    (hm : Keyed m) {e : StatEntry} :
    e ∈ s.reply nd req m ↔ ∃ o, m.lookup (entryKey e) = some o ∧ e = s.decay nd o := by
  have hmem : e ∈ s.reply nd req m ↔
      e ∈ (s.reply nd req m).filter fun x => entryKey x = entryKey e := by
    simp
  rw [hmem, filter_reply hlimit hm, Option.mem_toList, Option.map_eq_some_iff]
  exact exists_congr fun o => and_congr_right fun _ => eq_comm

/-- **What a peer contributes for a key**: its version, which it has
decayed. -/
theorem filter_remoteScan (hlimit : req.limit ≤ 0) (key peer : GoString) :
    (s.remoteScan req peer).filter (fun e => entryKey e = key)
      = ((s.nodes peer).bind fun p => (s.version p req key).map (s.decay p)).toList := by
  unfold remoteScan
  cases s.nodes peer with
  | none => rfl
  | some p =>
    show (s.replicaScan p req).filter _ = _
    unfold replicaScan
    rw [filter_reply hlimit (keyed_empty.foldl _), lookup_local]
    rfl

/-! ## Selection -/

/-- A version of a key, and the node that stores it. -/
structure Held where
  node : GoString
  version : StatEntry
  deriving DecidableEq

variable (s nd req)

/-- The entry a coordinator is given: its own version as it is, and a
peer's as the peer sends it, decayed. -/
def Held.sent (h : Held) : StatEntry :=
  if h.node = nd.self then h.version else s.decay nd h.version

/-- **What the nodes of a scan store of a key**, the coordinator first. -/
def held (key : GoString) : List Held :=
  (s.version nd req key).toList.map (fun v => ⟨nd.self, v⟩)
    ++ nd.scanPeers.flatMap fun peer => (s.peerVersion req key peer).toList.map fun v => ⟨peer, v⟩

/-- `pickNewer` on what is stored, as it is sent. -/
def pickHeld (a b : Held) : Held :=
  if newerOf (a.sent s nd) (b.sent s nd) = a.sent s nd then a else b

/-- `h'` takes over from `h`. -/
def TakesOver (h' h : Held) : Prop := newerOf (h.sent s nd) (h'.sent s nd) ≠ h.sent s nd

variable {s nd req}

theorem pickHeld_cases (a b : Held) : s.TakesOver nd b a ∧ pickHeld s nd a b = b ∨
    ¬ s.TakesOver nd b a ∧ pickHeld s nd a b = a := by
  unfold TakesOver pickHeld
  by_cases h : newerOf (a.sent s nd) (b.sent s nd) = a.sent s nd
  · exact .inr ⟨not_not.mpr h, if_pos h⟩
  · exact .inl ⟨h, if_neg h⟩

/-- **A merge, peer by peer**, read at one key: the map holds what the
selection says, as long as each peer's entries do to one what the peer does
to the other. -/
theorem lookup_foldl_remoteScan {α : Type} {key : GoString} (read : α → StatEntry)
    (select : Option α → GoString → Option α) {peers : List GoString}
    (hpeer : ∀ peer ∈ peers, ∀ best : Option α,
      ((s.remoteScan req peer).filter fun e => entryKey e = key).foldl
          (fun o e => pickNewer o (some e)) (best.map read) = (select best peer).map read)
    {m : AList fun _ : GoString => StatEntry} {best : Option α}
    (hm : m.lookup key = best.map read) :
    (peers.foldl (fun merged peer => (s.remoteScan req peer).foldl mergeEntry merged) m).lookup key
      = (peers.foldl select best).map read := by
  induction peers generalizing m best with
  | nil => exact hm
  | cons peer peers ih =>
    obtain ⟨hfirst, hrest⟩ := List.forall_mem_cons.mp hpeer
    refine ih hrest ?_
    rw [lookup_foldl_mergeEntry, hm]
    exact hfirst best

theorem sent_pickHeld (a b : Held) :
    (pickHeld s nd a b).sent s nd = newerOf (a.sent s nd) (b.sent s nd) := by
  unfold pickHeld
  split_ifs with h
  · exact h.symm
  · exact ((newerOf_choice _ _).resolve_left h).symm

/-- Folding over what is stored goes peer by peer. -/
theorem foldl_held (key : GoString) :
    (s.held nd req key).foldl (fun o a => pickOption (pickHeld s nd) o (some a)) none
      = nd.scanPeers.foldl (fun best peer => pickOption (pickHeld s nd) best
          ((s.peerVersion req key peer).map fun v => ⟨peer, v⟩))
        ((s.version nd req key).map fun v => ⟨nd.self, v⟩) := by
  have hone : ∀ (best : Option Held) (o : Option StatEntry) (node : GoString),
      (o.toList.map fun v => (⟨node, v⟩ : Held)).foldl
          (fun o a => pickOption (pickHeld s nd) o (some a)) best
        = pickOption (pickHeld s nd) best (o.map fun v => ⟨node, v⟩) := by
    intro best o node
    cases o with
    | none => cases best <;> rfl
    | some v => rfl
  unfold held
  rw [List.foldl_append, List.foldl_flatMap, hone]
  simp only [hone]
  rfl

/-- **The scan merges what prevails** among what its nodes store. -/
theorem lookup_merged (hlimit : req.limit ≤ 0)
    (hpatch : ∀ peer ∈ nd.scanPeers, s.currentPatch peer = s.currentPatch nd.self)
    (key : GoString) :
    ((nd.scanPeers.foldl (fun merged peer => (s.remoteScan req peer).foldl mergeEntry merged)
      ((s.lsmScan nd req).foldl mergeEntry ∅)).lookup key)
      = ((s.held nd req key).foldl (fun o a => pickOption (pickHeld s nd) o (some a)) none).map
        fun h => h.sent s nd := by
  rw [foldl_held]
  refine lookup_foldl_remoteScan (fun h : Held => h.sent s nd) _ (fun peer hpeer best => ?_) ?_
  · rw [filter_remoteScan hlimit]
    unfold peerVersion
    cases hp : s.nodes peer with
    | none => cases best <;> rfl
    | some p =>
      -- the peer decays by the same patch
      have hdecay : s.decay p = s.decay nd := by
        funext e
        unfold decay
        rw [s.self_eq peer p hp, hpatch peer hpeer]
      have hne : peer ≠ nd.self := (of_decide_eq_true (List.mem_filter.mp hpeer).2).1
      have hsent : ∀ v, (⟨peer, v⟩ : Held).sent s nd = s.decay nd v := fun v => if_neg hne
      rw [Option.bind_some, Option.bind_some, hdecay]
      cases s.version p req key with
      | none => cases best <;> rfl
      | some v =>
        cases best with
        | none => exact congrArg some (hsent v).symm
        | some h =>
          show pickNewer (some (h.sent s nd)) (some (s.decay nd v)) = _
          simp only [Option.map_some, pickOption, sent_pickHeld, hsent]
          rfl
  · rw [lookup_local]
    cases s.version nd req key with
    | none => rfl
    | some v => exact congrArg some (if_pos rfl).symm

/-- **The entries of a scan** are what prevails, decayed. -/
theorem mem_scan (hlimit : req.limit ≤ 0)
    (hpatch : ∀ peer ∈ nd.scanPeers, s.currentPatch peer = s.currentPatch nd.self)
    {e : StatEntry} :
    e ∈ s.scan nd req ↔ ∃ h, Prevails (s.TakesOver nd) (s.held nd req (entryKey e)) h ∧
      e = s.decay nd (h.sent s nd) := by
  have hkeyed : Keyed
      (nd.scanPeers.foldl (fun merged peer => (s.remoteScan req peer).foldl mergeEntry merged)
        ((s.lsmScan nd req).foldl mergeEntry ∅)) :=
    List.foldlRecOn nd.scanPeers _ (keyed_empty.foldl _) fun _ hm _ _ => hm.foldl _
  unfold scan
  rw [mem_reply hlimit hkeyed, lookup_merged hlimit hpatch]
  simp only [Option.map_eq_some_iff, foldl_eq_some_iff_prevails pickHeld_cases]
  constructor
  · rintro ⟨x, ⟨h, hh, rfl⟩, he⟩
    exact ⟨h, hh, he⟩
  · rintro ⟨h, hh, he⟩
    exact ⟨_, ⟨h, hh, rfl⟩, he⟩

/-- What is stored of a key is under it. -/
theorem entryKey_held {key : GoString} {h : Held} (hh : h ∈ s.held nd req key) :
    entryKey h.version = key := by
  have hversion : ∀ nd, ∀ v ∈ s.version nd req key, entryKey v = key := fun nd v hv =>
    keyed_scan _ _ _ key v hv
  unfold held at hh
  rcases List.mem_append.mp hh with hh | hh
  · obtain ⟨v, hv, rfl⟩ := List.mem_map.mp hh
    exact hversion nd v (Option.mem_toList.mp hv)
  · obtain ⟨peer, -, hh⟩ := List.mem_flatMap.mp hh
    obtain ⟨v, hv, rfl⟩ := List.mem_map.mp hh
    obtain ⟨p, -, hv⟩ := Option.bind_eq_some_iff.mp (Option.mem_toList.mp hv)
    exact hversion p v hv

end Snapshot

end Metastore

end TftAnalytics

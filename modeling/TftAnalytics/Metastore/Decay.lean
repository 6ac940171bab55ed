import TftAnalytics.Metastore.Helpers.Snapshot
import TftAnalytics.Peers.Ring
/-!
# Metastore — how often a scan decays

A read decays what it returns once, at the coordinator. A scan decays at
the coordinator too, and its peers, which run the same handler for a
forwarded scan, have decayed what they send. So an entry that a scan has
from a peer is decayed twice, and an entry that it has from the node
itself once.
-/

namespace TftAnalytics

namespace Metastore

open Hasher Peers

namespace Snapshot

variable (s : Snapshot) (nd : Node)

/-! ## What a read reaches -/

/-- The owners of a key in the order a read asks them. -/
def askedOwners (nd : Node) (req : ReadRequest) : List GoString :=
  if nd.owners req.entityId = [] then [nd.self] else orderSelfFirst nd.self (nd.owners req.entityId)

/-- What an owner has for the request. -/
def answer (req : ReadRequest) (owner : GoString) : Option StatEntry :=
  if owner = nd.self then nd.lsm.read s.env (readKey req)
  else (s.nodes owner).bind fun p => p.lsm.read s.env (readKey req)

/-- **The answers a read reaches**: the quorum's, and on until one is a
value. -/
def reached (need : ℕ) (answers : List (Option StatEntry)) : List (Option StatEntry) :=
  answers.take (max need (answers.findIdx (fun a => a.isSome) + 1))

/-- **What the owners store of the key that a read takes in.** -/
def kept (req : ReadRequest) : List StatEntry :=
  (reached (min readQuorum (nd.owners req.entityId).length)
    ((askedOwners nd req).map (s.answer nd req))).filterMap id

/-- `e'` takes over from `e`. -/
def Newer (e' e : StatEntry) : Prop := newerOf e e' ≠ e

/-- **All nodes are reachable** from a coordinator: its peers on the ring
and the owners of a key are alive and up. -/
structure Connected : Prop where
  alive : ∀ p, p ≠ nd.self → (p ∈ nd.member.host.ring.nodes ∨ ∃ id, p ∈ nd.owners id) →
    nd.isAlive p = true
  up : ∀ p, p ≠ nd.self → (p ∈ nd.member.host.ring.nodes ∨ ∃ id, p ∈ nd.owners id) →
    ∃ node, s.nodes p = some node

variable {s nd} {r : ReadCall} {owner : GoString} {rest : List GoString}

theorem ask_nil (hasked : r.asked = none) (hrest : r.rest = []) : s.ask nd r = r := by
  unfold ask ReadCall.look ReadCall.request
  rw [hasked, hrest]
  simp only [hasked]

/-- The loop body on the node itself: one answer, and no look at the
quorum. -/
theorem ask_self (hasked : r.asked = none) (hrest : r.rest = owner :: rest)
    (hself : owner = r.self) :
    s.ask nd r = ({ r with rest := rest }).count (nd.lsm.read s.env (readKey r.req)) := by
  unfold ask ReadCall.look ReadCall.request ReadCall.find ReadCall.count
  rw [hasked, hrest]
  simp only [hself, if_true]

/-- And on a replica that answers. -/
theorem ask_peer (hasked : r.asked = none) (hrest : r.rest = owner :: rest)
    (hself : owner ≠ r.self) (halive : nd.isAlive owner = true) {p : Node}
    (hup : s.nodes owner = some p) :
    s.ask nd r
      = (({ r with rest := rest }).count (p.lsm.read s.env (readKey r.req))).settle := by
  unfold ask ReadCall.look ReadCall.request ReadCall.serve ReadCall.report ReadCall.find
  rw [hasked, hrest]
  simp only [hself, if_false, halive, if_true, hup, Option.map_some]

/-- How many of the answers to come a read still takes, with `got` of the
`need` it wants and `best` in hand. -/
def taken (need got : ℕ) (best : Option StatEntry) (answers : List (Option StatEntry)) : ℕ :=
  if best = none then max (need - got) (answers.findIdx (fun a => a.isSome) + 1) else need - got

theorem pickNewer_ne_none (b : StatEntry) (a : Option StatEntry) : pickNewer (some b) a ≠ none := by
  cases a <;> simp [pickNewer]

/-- The answer that meets the quorum is the last one. -/
theorem taken_of_met {need got : ℕ} {best a : Option StatEntry} (answers : List (Option StatEntry))
    (hgo : ¬ (need ≤ got ∧ best ≠ none)) (hmet : need ≤ got + 1 ∧ pickNewer best a ≠ none) :
    taken need got best (a :: answers) = 1 := by
  obtain ⟨hneed, hval⟩ := hmet
  unfold taken
  split_ifs with hb
  · rw [hb] at hval
    have ha : a.isSome = true := Option.ne_none_iff_isSome.mp hval
    rw [List.findIdx_cons, ha]
    simp only [cond_true]
    omega
  · have hlt : ¬ need ≤ got := fun h => hgo ⟨h, hb⟩
    omega

/-- Any other leaves as many as the rest has to give. -/
theorem taken_of_unmet {need got : ℕ} {best a : Option StatEntry}
    (answers : List (Option StatEntry)) (hunmet : ¬ (need ≤ got + 1 ∧ pickNewer best a ≠ none)) :
    taken need got best (a :: answers) = taken need (got + 1) (pickNewer best a) answers + 1 := by
  unfold taken
  rcases best with _ | b
  · rcases a with _ | e
    · simp only [pickNewer, if_true, List.findIdx_cons, Option.isSome_none, cond_false]
      omega
    · have hlt : ¬ need ≤ got + 1 := fun h => hunmet ⟨h, by simp [pickNewer]⟩
      simp only [pickNewer, if_true, List.findIdx_cons, Option.isSome_some, cond_true,
        reduceCtorEq, if_false]
      omega
  · have hval := pickNewer_ne_none b a
    have hlt : ¬ need ≤ got + 1 := fun h => hunmet ⟨h, hval⟩
    simp only [reduceCtorEq, if_false, hval]
    omega

/-- **The loop over the replicas**, with a value in hand or without. -/
theorem best_iterate_ask (s : Snapshot) (nd : Node) {self : GoString} (hself : self = nd.self)
    (rest : List GoString)
    (hrest : ∀ o ∈ rest, o ≠ nd.self ∧ nd.isAlive o = true ∧ ∃ p, s.nodes o = some p)
    {r : ReadCall} (hr : r.rest = rest) (hasked : r.asked = none) (hrself : r.self = self)
    (hgo : ¬ (r.need ≤ r.responses ∧ r.best ≠ none)) {n : ℕ} (hn : rest.length ≤ n) :
    ((s.ask nd)^[n] r).best
      = ((rest.map (s.answer nd r.req)).take
          (taken r.need r.responses r.best (rest.map (s.answer nd r.req)))).foldl
          pickNewer r.best := by
  have hstay : ∀ (m : ℕ) (r : ReadCall), r.asked = none → r.rest = [] → (s.ask nd)^[m] r = r :=
    fun m r ha hr => Function.iterate_fixed (ask_nil ha hr) m
  induction rest generalizing r n with
  | nil =>
    rw [hstay n r hasked hr]
    simp
  | cons o rest ih =>
    obtain ⟨⟨ho, halive, p, hp⟩, hrest⟩ := List.forall_mem_cons.mp hrest
    obtain ⟨n, rfl⟩ : ∃ m, n = m + 1 := ⟨n - 1, by simp at hn; omega⟩
    have hn : rest.length ≤ n := by simpa using hn
    have hanswer : s.answer nd r.req o = p.lsm.read s.env (readKey r.req) := by
      unfold answer
      rw [if_neg ho, hp]
      rfl
    rw [Function.iterate_succ_apply,
      ask_peer hasked hr (by rw [hrself, hself]; exact ho) halive hp, ← hanswer, List.map_cons]
    set a := s.answer nd r.req o
    -- the call with this answer counted, before it looks at the quorum
    set r' := ({ r with rest := rest }).count a
    unfold ReadCall.settle
    by_cases hstop : r'.need ≤ r'.responses ∧ r'.best ≠ none
    · rw [if_pos hstop, hstay n _ (by exact hasked) rfl, taken_of_met _ hgo hstop]
      rfl
    · have hunmet : ¬ (r.need ≤ r.responses + 1 ∧ pickNewer r.best a ≠ none) := hstop
      rw [if_neg hstop, ih hrest (r := r') rfl hasked hrself hstop hn, taken_of_unmet _ hunmet]
      rfl

/-- The order of the owners: the node first, if it is one. -/
theorem orderSelfFirst_cases (self : GoString) {owners : List GoString} (hnodup : owners.Nodup) :
    (self ∈ owners ∧ ∃ others, orderSelfFirst self owners = self :: others ∧
      others.length + 1 = owners.length ∧ ∀ o ∈ others, o ∈ owners ∧ o ≠ self) ∨
    self ∉ owners ∧ orderSelfFirst self owners = owners := by
  unfold orderSelfFirst
  by_cases hmem : self ∈ owners
  -- without duplicates the node is there once
  · have hfirst : owners.filter (fun o => o = self) = [self] := by
      rw [List.filter_eq, List.count_eq_one_of_mem hnodup hmem]
      rfl
    refine .inl ⟨hmem, owners.filter fun o => o ≠ self, by rw [hfirst]; rfl, ?_, fun o ho => ?_⟩
    · have hl := List.length_eq_length_filter_add (l := owners) fun o => decide (o = self)
      rw [hfirst] at hl
      simp only [decide_not, List.length_singleton] at hl ⊢
      omega
    · obtain ⟨ho, hne⟩ := List.mem_filter.mp ho
      exact ⟨ho, by simpa using hne⟩
  · have hfirst : owners.filter (fun o => o = self) = [] := by
      rw [List.filter_eq, List.count_eq_zero_of_not_mem hmem]
      rfl
    have hall : owners.filter (fun o => o ≠ self) = owners := by
      rw [List.filter_eq_self]
      intro o ho
      have hne : o ≠ self := fun heq => hmem (heq ▸ ho)
      simpa using hne
    exact .inr ⟨hmem, by rw [hfirst, hall]; rfl⟩

/-- An answer that stands alone. -/
theorem foldl_reached_singleton (need : ℕ) (a : Option StatEntry) :
    (reached need [a]).foldl pickNewer none = a := by
  unfold reached
  rw [List.take_of_length_le (by simp)]
  show pickNewer none a = a
  cases a <;> rfl

theorem reached_eq (need : ℕ) (answers : List (Option StatEntry)) :
    reached need answers = answers.take (taken need 0 none answers) := by
  unfold reached taken
  rw [if_pos rfl, Nat.sub_zero]

/-- A first answer that is not yet a quorum. -/
theorem reached_cons {need : ℕ} (hneed : 2 ≤ need) (a : Option StatEntry)
    (answers : List (Option StatEntry)) :
    reached need (a :: answers) = a :: answers.take (taken need 1 (pickNewer none a) answers) := by
  rw [reached_eq, taken_of_unmet _ fun h => by omega, List.take_succ_cons]

/-- **The loop of a read over its owners**, when they are reachable. -/
theorem best_read {owners : List GoString} (hnodup : owners.Nodup)
    (hpeer : ∀ o ∈ owners, o ≠ nd.self → nd.isAlive o = true ∧ ∃ p, s.nodes o = some p)
    (req : ReadRequest) :
    ((s.ask nd)^[owners.length + 1] (.start nd.self nd.boots req owners)).best
      = (reached (min readQuorum owners.length)
          ((if owners = [] then [nd.self] else orderSelfFirst nd.self owners).map
            (s.answer nd req))).foldl pickNewer none := by
  have hlocal : s.answer nd req nd.self = nd.lsm.read s.env (readKey req) := by
    unfold answer
    rw [if_pos rfl]
  have hstart : (ReadCall.start nd.self nd.boots req owners).rest
      = if owners = [] then [nd.self] else orderSelfFirst nd.self owners := rfl
  set start := ReadCall.start nd.self nd.boots req owners with hs
  set own := nd.lsm.read s.env (readKey req)
  have hown : pickNewer none own = own := by cases own <;> rfl
  rw [Function.iterate_succ_apply]
  by_cases hempty : owners = []
  · -- no owners: the node asks itself
    rw [if_pos hempty] at hstart ⊢
    rw [ask_self rfl hstart rfl, Function.iterate_fixed (ask_nil rfl rfl)]
    rw [List.map_singleton, foldl_reached_singleton, hlocal]
    exact hown
  rw [if_neg hempty] at hstart ⊢
  rcases orderSelfFirst_cases nd.self hnodup with ⟨-, others, horder, hlen, hothers⟩ |
    ⟨hmem, horder⟩
  · -- an owner itself: its own answer comes first, and it asks the others
    rw [horder] at hstart ⊢
    rw [ask_self rfl hstart rfl, List.map_cons, hlocal]
    by_cases halone : others = []
    · rw [halone, Function.iterate_fixed (ask_nil rfl rfl), List.map_nil, foldl_reached_singleton]
      exact hown
    · have hneed : 2 ≤ min readQuorum owners.length := by
        have hpos := List.length_pos_iff.mpr halone
        unfold readQuorum
        omega
      have hloop := best_iterate_ask s nd rfl others
        (fun o ho => ⟨(hothers o ho).2, hpeer o (hothers o ho).1 (hothers o ho).2⟩)
        (r := ({ start with rest := others }).count own) rfl rfl rfl
        (fun hmet => absurd (show 2 ≤ 1 from hneed.trans hmet.1) (by decide))
        (n := owners.length) (by omega)
      rw [reached_cons hneed, List.foldl_cons]
      exact hloop
  · -- not an owner: it asks all of them
    rw [horder] at hstart ⊢
    rw [reached_eq, ← Function.iterate_succ_apply, best_iterate_ask s nd rfl owners
      (fun o ho => ⟨fun heq => hmem (heq ▸ ho), hpeer o ho fun heq => hmem (heq ▸ ho)⟩)
      (r := start) hstart rfl rfl (by rw [hs]; simp [ReadCall.start]) (by omega)]
    rfl

/-- Answers without a value change nothing. -/
theorem foldl_pickNewer (answers : List (Option StatEntry)) (best : Option StatEntry) :
    answers.foldl pickNewer best
      = (answers.filterMap id).foldl (fun o a => pickOption newerOf o (some a)) best := by
  induction answers generalizing best with
  | nil => rfl
  | cons a answers ih =>
    rw [List.foldl_cons, ih]
    cases a with
    | none => cases best <;> rfl
    | some e => cases best <;> rfl

theorem newerOf_cases (x y : StatEntry) :
    Newer y x ∧ newerOf x y = y ∨ ¬ Newer y x ∧ newerOf x y = x := by
  unfold Newer
  by_cases h : newerOf x y = x
  · exact .inr ⟨not_not.mpr h, h⟩
  · exact .inl ⟨h, (newerOf_choice x y).resolve_left h⟩

/-- **What a read returns**, when all nodes are reachable: what prevails
among what it takes in, decayed once. -/
theorem read_eq_some_iff (hconn : s.Connected nd) {req : ReadRequest} {r : StatEntry} :
    s.read nd req = some r ↔ ∃ v, Prevails Newer (s.kept nd req) v ∧ s.decay nd v = r := by
  have hread : s.read nd req = _ := congrArg (Option.map (s.decay nd)) <|
    best_read (HashRing.getNodes_nodup _ _ _)
      (fun o ho hne => ⟨hconn.alive o hne (.inr ⟨_, ho⟩), hconn.up o hne (.inr ⟨_, ho⟩)⟩) req
  rw [hread, Option.map_eq_some_iff]
  refine exists_congr fun v => and_congr_left fun _ => ?_
  rw [foldl_pickNewer, foldl_eq_some_iff_prevails newerOf_cases]
  rfl

/-! ## Once, or twice -/

/-- **A scan decays once**: each entry it returns is the stored version of
its key that prevails, decayed once, and a read of the key returns an entry
of the same sample size. -/
def DecaysOnce (s : Snapshot) (nd : Node) (req : ScanRequest) : Prop :=
  ∀ e ∈ s.scan nd req,
    (∃ h, Prevails (s.TakesOver nd) (s.held nd req (entryKey e)) h ∧ e = s.decay nd h.version) ∧
      ∃ r, s.read nd e.request = some r ∧ r.sampleSize = e.sampleSize

/-- The samples that a decay leaves of a stored version. -/
def samplesLeft (s : Snapshot) (nd : Node) (e : StatEntry) : Int64 :=
  if Superseded (s.currentPatch nd.self) e then s.decayedSampleSize e.sampleSize s.age
  else e.sampleSize

/-- A stored version that a second decay would leave alone. -/
def Steady (s : Snapshot) (nd : Node) (e : StatEntry) : Prop :=
  Superseded (s.currentPatch nd.self) e →
    s.decayedSampleSize (s.decayedSampleSize e.sampleSize s.age) s.age
      = s.decayedSampleSize e.sampleSize s.age

theorem sampleSize_decay (e : StatEntry) : (s.decay nd e).sampleSize = s.samplesLeft nd e := by
  unfold decay applyDecay samplesLeft
  split_ifs <;> rfl

/-- The decay is the same after a change of the sample size. -/
@[simp] theorem request_decay (e : StatEntry) : (s.decay nd e).request = e.request := by
  unfold decay applyDecay
  split <;> rfl

theorem decay_decay_iff (e : StatEntry) :
    s.decay nd (s.decay nd e) = s.decay nd e ↔ s.Steady nd e := by
  have hsame : ∀ n, Superseded (s.currentPatch nd.self) { e with sampleSize := n }
      ↔ Superseded (s.currentPatch nd.self) e := fun _ => Iff.rfl
  unfold decay applyDecay Steady
  by_cases h : Superseded (s.currentPatch nd.self) e
  · simp [h, hsame]
  · simp [h]

/-- **Versions where they are decayed once**: of each key the stored version
that prevails is the coordinator's own, or steady; and what prevails among
what the owners store of it has as many samples left. -/
def Placed (s : Snapshot) (nd : Node) (req : ScanRequest) : Prop :=
  ∀ key h, Prevails (s.TakesOver nd) (s.held nd req key) h →
    (h.node = nd.self ∨ s.Steady nd h.version) ∧
    ∃ v, Prevails Newer (s.kept nd h.version.request) v ∧
      s.samplesLeft nd v = s.samplesLeft nd h.version

/-- **A scan decays once just when the versions are so placed**, in a cluster
whose nodes are reachable and agree on the patch. -/
theorem decaysOnce_iff_placed (s : Snapshot) (nd : Node) (req : ScanRequest)
    (hlimit : req.limit ≤ 0) (hconn : s.Connected nd)
    (hpatch : ∀ peer ∈ nd.member.host.ring.nodes,
      s.currentPatch peer = s.currentPatch nd.self) :
    s.DecaysOnce nd req ↔ s.Placed nd req := by
  have hpeers : ∀ peer ∈ nd.scanPeers, s.currentPatch peer = s.currentPatch nd.self := by
    intro peer hpeer
    have hnode := (List.mem_filter.mp hpeer).1
    exact hpatch peer ((Finset.mem_sort _).mp hnode)
  have hkey : ∀ h : Held, entryKey (s.decay nd (h.sent s nd)) = entryKey h.version := by
    intro h
    rw [entryKey_decay]
    unfold Held.sent
    split_ifs
    · rfl
    · rw [entryKey_decay]
  -- decaying what is sent is one decay, or one too many that shows or not
  have honce : ∀ h : Held, s.decay nd (h.sent s nd) = s.decay nd h.version ↔
      h.node = nd.self ∨ s.Steady nd h.version := by
    intro h
    unfold Held.sent
    split_ifs with hself
    · exact iff_of_true rfl (.inl hself)
    · rw [decay_decay_iff, or_iff_right hself]
  -- what prevails of a key is in the reply, and nothing else of the key
  have hunique : ∀ key h h', Prevails (s.TakesOver nd) (s.held nd req key) h →
      Prevails (s.TakesOver nd) (s.held nd req key) h' → h = h' := by
    intro key h h' hh hh'
    rw [← foldl_eq_some_iff_prevails pickHeld_cases] at hh hh'
    exact Option.some.inj (hh.symm.trans hh')
  constructor
  · intro hscan key h hh
    have hunder := entryKey_held hh.mem
    obtain ⟨⟨h', hh', hdecay⟩, r, hread, hsize⟩ := hscan _
      ((mem_scan hlimit hpeers).mpr ⟨h, by rw [hkey, hunder]; exact hh, rfl⟩)
    rw [hkey, hunder] at hh'
    obtain rfl := hunique key _ _ hh hh'
    refine ⟨(honce h).mp hdecay, ?_⟩
    rw [hdecay, request_decay, read_eq_some_iff hconn] at hread
    obtain ⟨v, hv, rfl⟩ := hread
    rw [hdecay, sampleSize_decay, sampleSize_decay] at hsize
    exact ⟨v, hv, hsize⟩
  · intro hplaced e he
    obtain ⟨h, hh, rfl⟩ := (mem_scan hlimit hpeers).mp he
    obtain ⟨hnode, v, hv, hleft⟩ := hplaced _ h hh
    rw [(honce h).mpr hnode]
    refine ⟨⟨h, ?_, rfl⟩, s.decay nd v, ?_, ?_⟩
    · rw [hkey] at hh
      rw [entryKey_decay]
      exact hh
    · rw [request_decay]
      exact (read_eq_some_iff hconn).mpr ⟨v, hv, rfl⟩
    · rw [sampleSize_decay, sampleSize_decay, hleft]

/-! ## One version of each key -/

/-- **The nodes agree**: what they store of a key, and what its owners answer
a read of it, is one version, of which a decay leaves no more samples than
it has. -/
structure Agreed (s : Snapshot) (nd : Node) (req : ScanRequest) : Prop where
  held : ∀ key, ∀ h ∈ s.held nd req key, ∀ h' ∈ s.held nd req key, h'.version = h.version
  answers : ∀ key, ∀ h ∈ s.held nd req key, ∀ owner ∈ askedOwners nd h.version.request,
    ∀ v ∈ s.answer nd h.version.request owner, v = h.version
  shrinks : ∀ key, ∀ h ∈ s.held nd req key, s.samplesLeft nd h.version ≤ h.version.sampleSize

/-- **Versions at hand**: what any node stores of a key is stored at the
coordinator, too, or steady; and an owner of the key stores it. -/
def AtHand (s : Snapshot) (nd : Node) (req : ScanRequest) : Prop :=
  ∀ key, ∀ h ∈ s.held nd req key,
    ((∃ h' ∈ s.held nd req key, h'.node = nd.self) ∨ s.Steady nd h.version) ∧
    ∃ owner ∈ askedOwners nd h.version.request, s.answer nd h.version.request owner ≠ none

/-- Of two versions with one clock the first stays, unless it has fewer
samples. -/
theorem newerOf_of_le {a b : StatEntry} (hclock : b.clock = a.clock)
    (hle : b.sampleSize ≤ a.sampleSize) : newerOf a b = a := by
  unfold newerOf
  rw [hclock]
  simp [hle]

/-- The coordinator's own version comes first. -/
theorem head?_held {key : GoString} {h : Held} (hh : h ∈ s.held nd req key)
    (hself : h.node = nd.self) : (s.held nd req key).head? = some h := by
  unfold held at hh ⊢
  rcases List.mem_append.mp hh with hh | hh
  · obtain ⟨v, hv, rfl⟩ := List.mem_map.mp hh
    rw [Option.mem_def.mp (Option.mem_toList.mp hv)]
    rfl
  · obtain ⟨peer, hpeer, hh⟩ := List.mem_flatMap.mp hh
    obtain ⟨v, -, rfl⟩ := List.mem_map.mp hh
    exact absurd hself (of_decide_eq_true (List.mem_filter.mp hpeer).2).1

/-- **And prevails**, where the nodes agree. -/
theorem Agreed.node_eq_iff (ha : s.Agreed nd req) {key : GoString} {h : Held}
    (hh : Prevails (s.TakesOver nd) (s.held nd req key) h) :
    h.node = nd.self ↔ ∃ h' ∈ s.held nd req key, h'.node = nd.self := by
  refine ⟨fun hself => ⟨h, hh.mem, hself⟩, ?_⟩
  rintro ⟨own, hown, hself⟩
  have hsent : own.sent s nd = own.version := if_pos hself
  have hstays : ∀ b ∈ s.held nd req key, ¬ s.TakesOver nd b own := by
    intro b hb
    have hversion := ha.held key own hown b hb
    unfold TakesOver
    rw [hsent, not_not]
    unfold Held.sent
    split_ifs
    · exact newerOf_of_le (by rw [hversion]) (hversion ▸ Int64.le_refl _)
    · rw [hversion]
      refine newerOf_of_le ?_ ?_
      · unfold decay applyDecay
        split_ifs <;> rfl
      · rw [sampleSize_decay]
        exact ha.shrinks key own hown
  rw [hh.eq_head (head?_held hown hself) hstays]
  exact hself

/-- What a read takes in are answers of the owners. -/
theorem mem_kept {req : ReadRequest} {v : StatEntry} (hv : v ∈ s.kept nd req) :
    ∃ owner ∈ askedOwners nd req, v ∈ s.answer nd req owner := by
  obtain ⟨a, ha, rfl⟩ := List.mem_filterMap.mp hv
  obtain ⟨owner, howner, heq⟩ := List.mem_map.mp (List.mem_of_mem_take ha)
  exact ⟨owner, howner, heq⟩

/-- And there is one among them if any owner has one. -/
theorem kept_ne_nil {req : ReadRequest} {owner : GoString} (howner : owner ∈ askedOwners nd req)
    (hanswer : s.answer nd req owner ≠ none) : s.kept nd req ≠ [] := by
  unfold kept
  set answers := (askedOwners nd req).map (s.answer nd req) with hanswers
  have hsome : ∃ a ∈ answers, a.isSome = true :=
    ⟨_, List.mem_map_of_mem howner, Option.ne_none_iff_isSome.mp hanswer⟩
  obtain ⟨i, hi, hlt⟩ : ∃ i, (answers.findIdx fun a => a.isSome) = i ∧ i < answers.length :=
    ⟨_, rfl, List.findIdx_lt_length_of_exists hsome⟩
  have hfound : (answers[i]).isSome = true := by
    subst hi
    exact List.findIdx_getElem
  obtain ⟨v, hv⟩ := Option.isSome_iff_exists.mp hfound
  -- the first answer with a value is the last that is taken, or earlier
  have hmem : some v ∈ reached (min readQuorum (nd.owners req.entityId).length) answers := by
    unfold reached
    rw [hi, List.mem_take_iff_getElem]
    exact ⟨i, by omega, hv⟩
  exact List.ne_nil_of_mem (List.mem_filterMap.mpr ⟨some v, hmem, rfl⟩)

/-- **Where the nodes agree, versions are well placed just when they are at
hand.** -/
theorem Agreed.placed_iff (ha : s.Agreed nd req) : s.Placed nd req ↔ s.AtHand nd req := by
  constructor
  · intro hplaced key h hh
    obtain ⟨p, hp⟩ := exists_prevails (s.TakesOver nd) (List.ne_nil_of_mem hh)
    have hversion := ha.held key h hh p hp.mem
    obtain ⟨hnode, v, hv, -⟩ := hplaced key p hp
    rw [ha.node_eq_iff hp] at hnode
    rw [hversion] at hnode hv
    obtain ⟨owner, howner, hanswer⟩ := mem_kept hv.mem
    exact ⟨hnode, owner, howner, Option.ne_none_iff_exists'.mpr ⟨v, hanswer⟩⟩
  · intro hhand key p hp
    obtain ⟨hnode, owner, howner, hanswer⟩ := hhand key p hp.mem
    rw [ha.node_eq_iff hp]
    refine ⟨hnode, ?_⟩
    obtain ⟨v, hv⟩ := exists_prevails Newer (kept_ne_nil howner hanswer)
    obtain ⟨owner', howner', hv'⟩ := mem_kept hv.mem
    exact ⟨v, hv, by rw [ha.answers key p hp.mem owner' howner' v hv']⟩

/-- **When a scan decays once**, in a cluster whose nodes are reachable and
agree on the patch: just when the versions that prevail are well placed;
and where the nodes agree on the versions, just when each of them is at
hand. -/
theorem decaysOnce_iff (s : Snapshot) (nd : Node) (req : ScanRequest) (hlimit : req.limit ≤ 0)
    (hconn : s.Connected nd)
    (hpatch : ∀ peer ∈ nd.member.host.ring.nodes,
      s.currentPatch peer = s.currentPatch nd.self) :
    (s.DecaysOnce nd req ↔ s.Placed nd req) ∧
      (s.Agreed nd req → (s.DecaysOnce nd req ↔ s.AtHand nd req)) := by
  have hplaced := decaysOnce_iff_placed s nd req hlimit hconn hpatch
  exact ⟨hplaced, fun hagreed => hplaced.trans hagreed.placed_iff⟩

/-! ## Two nodes -/

/-- An entry of patch `14.1`. -/
def agedEntry : StatEntry :=
  { sampleEntry 97 1 with patch := [49, 52, 46, 49], sampleSize := 100 }

/-- Its encoding. -/
def agedEnv : Env where
  codec := .ofTable
    [(agedEntry, [10, 1, 97, 26, 4, 49, 52, 46, 49, 72, 100, 82, 7, 10, 5, 10, 1, 110, 16, 1])]
    (by decide)
  nano := fun n => n
  nano_strictMono := strictMono_id

/-- The nodes and the owners on a ring are the peers it was made of. -/
theorem Node.mem_peers {nd : Node} {peers : List GoString}
    (hring : nd.member.host.ring = newRing peers) {p : GoString}
    (hp : p ∈ nd.member.host.ring.nodes ∨ ∃ id, p ∈ nd.owners id) : p ∈ peers := by
  have hwf : nd.member.host.ring.Wf := by
    rw [hring]
    exact newRing_wf peers
  have hnode : p ∈ nd.member.host.ring.nodes := by
    rcases hp with hp | ⟨id, hp⟩
    · exact hp
    · exact hwf.getNodes_subset hp
  rw [hring, newRing_nodes] at hnode
  exact List.mem_toFinset.mp hnode

/-- A node that has written nothing. -/
def emptyNode : Node := .boot [97] [[98]] (.init agedEnv 0) 0

/-- Its peer, which has written the entry. -/
def agedNode : Node := .boot [98] [[97]] (history agedEnv 0 [.write agedEntry .ok]) 0

/-- The two of them, both at patch `14.2`, and a decay to one half. -/
def agedPair : Snapshot where
  env := agedEnv
  nodes := fun n => if n = [97] then some emptyNode else if n = [98] then some agedNode else none
  self_eq := by
    intro n nd hnd
    split_ifs at hnd with h₁ h₂
    · obtain rfl : emptyNode = nd := by simpa using hnd
      exact h₁.symm
    · obtain rfl : agedNode = nd := by simpa using hnd
      exact h₂.symm
    · cases hnd
  currentPatch := fun _ => [49, 52, 46, 50]
  age := 1
  decayedSampleSize := fun n _ => n / 2
  order := fun _ => ⟨id, fun l => .refl l⟩

/-- A scan of everything. -/
def scanAll : ScanRequest := ⟨[], [], [], [], 0⟩

theorem emptyNode_ring : emptyNode.member.host.ring = newRing [[97], [98]] :=
  Node.ring_boot [97] [[98]] _ 0

theorem emptyNode_nodes : emptyNode.member.host.ring.nodes = {[97], [98]} := by
  rw [emptyNode_ring, newRing_nodes]
  rfl

/-- Both nodes can be reached. -/
theorem connected_agedPair : agedPair.Connected emptyNode := by
  have hnodes : ∀ p, p ≠ emptyNode.self →
      (p ∈ emptyNode.member.host.ring.nodes ∨ ∃ id, p ∈ emptyNode.owners id) → p = [98] := by
    intro p hp hmem
    have hpeer := Node.mem_peers emptyNode_ring hmem
    rw [List.mem_cons, List.mem_singleton] at hpeer
    exact hpeer.resolve_left hp
  constructor
  · intro p hp hmem
    rw [hnodes p hp hmem]
    decide
  · intro p hp hmem
    rw [hnodes p hp hmem]
    exact ⟨agedNode, rfl⟩

theorem scanPeers_emptyNode : emptyNode.scanPeers = [[98]] := by
  unfold Node.scanPeers
  rw [emptyNode_nodes, Finset.sort_insert (· ≤ ·) (by decide) (by decide), Finset.sort_singleton]
  decide

/-- They store the one entry, at the peer. -/
theorem held_agedPair {key : GoString} {h : Held} (hh : h ∈ agedPair.held emptyNode scanAll key) :
    h = ⟨[98], agedEntry⟩ := by
  have hown : (emptyNode.lsm.store.tree.scan agedEnv.codec (scanPredicate scanAll)).entries = [] :=
    by decide
  have hpeer : (agedNode.lsm.store.tree.scan agedEnv.codec (scanPredicate scanAll)).entries
      = [⟨entryKey agedEntry, agedEntry⟩] := by decide
  unfold held at hh
  rw [scanPeers_emptyNode, List.flatMap_singleton] at hh
  rcases List.mem_append.mp hh with hh | hh
  · obtain ⟨v, hv, rfl⟩ := List.mem_map.mp hh
    have hmem := AList.mem_lookup_iff.mp (Option.mem_toList.mp hv)
    rw [show agedPair.env = agedEnv from rfl, hown] at hmem
    cases hmem
  · obtain ⟨v, hv, rfl⟩ := List.mem_map.mp hh
    have hversion : v ∈ agedPair.version agedNode scanAll key := Option.mem_toList.mp hv
    have hmem := AList.mem_lookup_iff.mp hversion
    rw [show agedPair.env = agedEnv from rfl, hpeer, List.mem_singleton] at hmem
    simp only [Sigma.mk.injEq, heq_eq_eq] at hmem
    rw [hmem.2]

/-- Which is no conflict. -/
theorem agreed_agedPair : agedPair.Agreed emptyNode scanAll where
  held key h hh h' hh' := by rw [held_agedPair hh, held_agedPair hh']
  answers key h hh owner _ v hv := by
    rw [held_agedPair hh] at hv ⊢
    have hown : emptyNode.lsm.read agedEnv (readKey agedEntry.request) = none := by decide
    have hpeer : agedNode.lsm.read agedEnv (readKey agedEntry.request) = some agedEntry := by decide
    have hself : emptyNode.self = [97] := rfl
    unfold answer at hv
    split_ifs at hv with howner
    · rw [show agedPair.env = agedEnv from rfl, hown] at hv
      cases hv
    · have hnode : agedPair.nodes owner = if owner = [98] then some agedNode else none := by
        show (if owner = [97] then some emptyNode else _) = _
        rw [if_neg (hself ▸ howner)]
      rw [hnode] at hv
      split_ifs at hv
      · rw [Option.bind_some, show agedPair.env = agedEnv from rfl, hpeer] at hv
        exact (Option.some.inj hv).symm
      · cases hv
  shrinks key h hh := by
    rw [held_agedPair hh]
    decide

theorem decaysOnce_iff_agedPair :
    (agedPair.DecaysOnce emptyNode scanAll ↔ agedPair.Placed emptyNode scanAll) ∧
      (agedPair.DecaysOnce emptyNode scanAll ↔ agedPair.AtHand emptyNode scanAll) := by
  obtain ⟨hplaced, hhand⟩ := decaysOnce_iff agedPair emptyNode scanAll (by decide)
    connected_agedPair fun _ _ => rfl
  exact ⟨hplaced, hhand agreed_agedPair⟩

/-- **A scan decays twice** what it has from a peer: of 100 samples it
reports 25, where one decay leaves 50. -/
theorem not_decaysOnce : ¬ ∀ (s : Snapshot) (nd : Node) (req : ScanRequest), req.limit ≤ 0 →
    s.Connected nd →
    (∀ peer ∈ nd.member.host.ring.nodes, s.currentPatch peer = s.currentPatch nd.self) →
    s.DecaysOnce nd req := by
  intro h
  have honce := h agedPair emptyNode scanAll (by decide) connected_agedPair fun _ _ => rfl
  have hheld : agedPair.held emptyNode scanAll (entryKey agedEntry) = [⟨[98], agedEntry⟩] := by
    unfold held
    rw [scanPeers_emptyNode]
    decide
  have hmem : agedPair.decay emptyNode (agedPair.decay emptyNode agedEntry)
      ∈ agedPair.scan emptyNode scanAll := by
    refine (mem_scan (by decide) fun _ _ => rfl).mpr ⟨⟨[98], agedEntry⟩, ?_, rfl⟩
    rw [entryKey_decay, entryKey_decay, hheld]
    exact .first _
  obtain ⟨⟨h, hh, htwice⟩, -⟩ := honce _ hmem
  rw [entryKey_decay, entryKey_decay, hheld] at hh
  obtain rfl := List.mem_singleton.mp hh.mem
  revert htwice
  decide

end Snapshot

end Metastore

end TftAnalytics

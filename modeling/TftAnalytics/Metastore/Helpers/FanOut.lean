import TftAnalytics.Metastore.Model.FanOut
import TftAnalytics.Metastore.Helpers.WriteCall
/-!
# Metastore — what a call of `Write` has counted

Helper layer. A call has counted one acknowledgement for the write to its
own node's tree, if that went well, and one for each success it has taken
from its channel; each goroutine sends once, and each result is taken once.
-/

namespace TftAnalytics

namespace Metastore

variable {env : Env} {nd : Node} {fate : Fate} {c c' : Cluster} {owner : GoString} {ok : Bool}

namespace Handler

variable {h h' : Handler}

/-! ## Steps -/

/-- **The loop body on one owner**: nothing when there is none, or when the
machine stops, a write to the node's own tree, or a replica that is to be
tried or is not held alive. -/
theorem look_cases (env : Env) (nd : Node) (fate : Fate) (h : Handler) :
    (h.look env nd fate = h ∧ (h.call.rest = [] ∨ h.call.rest.head? = some h.call.self ∧
      ∃ d, ((fate.action h.call.entry).exit env nd.lsm.store).1 = .crashed d)) ∨
      ∃ owner rest, h.call.rest = owner :: rest ∧
      ((owner = h.call.self ∧ ∃ s err,
          ((fate.action h.call.entry).exit env nd.lsm.store).1 = .returned s err ∧
          h.look env nd fate = { h with
            call := { h.call with
              rest := rest, acks := if err then h.call.acks else h.call.acks + 1 }
            own := h.own || !err }) ∨
        (owner ≠ h.call.self ∧ ∃ tried, (tried = [] ∨ tried = [⟨owner, none, false⟩]) ∧
          h.look env nd fate = { h with
            call := { h.call with rest := rest, remotes := h.call.remotes ++ tried } })) := by
  unfold look stores WriteCall.look WriteCall.local?
  cases hrest : h.call.rest with
  | nil => exact Or.inl ⟨by simp, Or.inl rfl⟩
  | cons owner rest =>
    by_cases hself : owner = h.call.self
    · simp only [hself, if_true, List.head?_cons, Option.filter_some, decide_true,
        Option.isSome_some, Bool.true_and]
      cases hexit : ((fate.action h.call.entry).exit env nd.lsm.store).1 with
      | crashed d => exact Or.inl ⟨by simp, Or.inr ⟨trivial, d, rfl⟩⟩
      | returned s err => exact Or.inr ⟨h.call.self, rest, rfl, Or.inl ⟨rfl, s, err, rfl, rfl⟩⟩
    · refine Or.inr ⟨owner, rest, rfl, Or.inr ⟨hself, ?_⟩⟩
      simp only [hself, if_false, List.head?_cons, Option.filter_some, decide_false,
        Bool.false_eq_true, Option.isSome_none, Bool.false_and, Bool.or_false]
      split_ifs
      · exact ⟨_, Or.inr rfl, rfl⟩
      · exact ⟨[], Or.inl rfl, by rw [List.append_nil]⟩

/-- **The loop over the results takes the next one.** -/
theorem take_cases (h : Handler) : h.take = h ∨ ∃ owner ok, h.results[h.taken]? = some (owner, ok) ∧
    h.call.rest = [] ∧ h.taken < h.call.remotes.length ∧ h.call.acks < h.call.need ∧
      h.take = { h with call := h.call.report owner ok, taken := h.taken + 1 } := by
  unfold take
  split
  · rename_i owner ok hnext hcollecting
    simp only [collecting, Bool.decide_and, Bool.and_eq_true, decide_eq_true_eq] at hcollecting
    exact Or.inr ⟨owner, ok, hnext, hcollecting.1, hcollecting.2.1, hcollecting.2.2, rfl⟩
  · exact Or.inl rfl

theorem maySend_iff : h.maySend owner ok = true ↔ h.call.rest = [] ∧
    owner ∉ h.results.map Prod.fst ∧
      ∃ r ∈ h.call.remotes, r.owner = owner ∧ (ok = true → r.served = some true) := by
  simp only [maySend, decide_eq_true_eq]

theorem collecting_eq_false (hrest : h.call.rest = []) : h.collecting = false ↔
    h.call.remotes.length ≤ h.taken ∨ h.call.need ≤ h.call.acks := by
  simp only [collecting, decide_eq_false_iff_not, hrest, true_and, not_and_or, not_lt]

theorem reply_eq_some : h.reply = some ok ↔ h.call.rest = [] ∧ h.collecting = false ∧
    ok = decide (h.call.need ≤ h.call.acks) := by
  unfold reply
  split_ifs with hdone
  · simp only [Option.some.injEq, hdone.1, hdone.2, true_and]
    exact eq_comm
  · constructor
    · rintro ⟨⟩
    · exact fun hall => absurd ⟨hall.1, hall.2.1⟩ hdone

/-! ## What never changes -/

/-- **What a call stays**: its request, its owners, and its answer once it
has returned. -/
structure Becomes (h h' : Handler) : Prop where
  md : h'.md = h.md
  origin : h'.origin = h.origin
  self : h'.call.self = h.call.self
  boot : h'.call.boot = h.call.boot
  entry : h'.call.entry = h.call.entry
  owners : h'.call.owners = h.call.owners
  replied : h.reply ≠ none → h'.reply = h.reply ∧ h'.own = h.own

theorem Becomes.rfl : h.Becomes h :=
  ⟨Eq.refl _, Eq.refl _, Eq.refl _, Eq.refl _, Eq.refl _, Eq.refl _,
    fun _ => ⟨Eq.refl _, Eq.refl _⟩⟩

theorem Becomes.trans {h'' : Handler} (hab : h.Becomes h') (hbc : h'.Becomes h'') :
    h.Becomes h'' where
  md := hbc.md.trans hab.md
  origin := hbc.origin.trans hab.origin
  self := hbc.self.trans hab.self
  boot := hbc.boot.trans hab.boot
  entry := hbc.entry.trans hab.entry
  owners := hbc.owners.trans hab.owners
  replied := by
    intro hsome
    obtain ⟨hreply, hown⟩ := hab.replied hsome
    obtain ⟨hreply', hown'⟩ := hbc.replied (hreply ▸ hsome)
    exact ⟨hreply'.trans hreply, hown'.trans hown⟩

theorem becomes_look (env : Env) (nd : Node) (fate : Fate) (h : Handler) :
    h.Becomes (h.look env nd fate) := by
  rcases h.look_cases env nd fate with ⟨heq, -⟩ | ⟨owner, rest, hrest, hstep⟩
  · rw [heq]
    exact .rfl
  · -- it has not returned
    have hreply : h.reply = none := by
      unfold reply
      rw [if_neg fun hdone => by rw [hrest] at hdone; cases hdone.1]
    rcases hstep with ⟨-, s, err, -, heq⟩ | ⟨-, tried, -, heq⟩ <;> rw [heq] <;>
      exact ⟨Eq.refl _, Eq.refl _, Eq.refl _, Eq.refl _, Eq.refl _, Eq.refl _,
        fun hsome => absurd hreply hsome⟩

theorem reply_answer (owner : GoString) (ok : Bool) (h : Handler) :
    (h.answer owner ok).reply = h.reply := by
  have hcollecting : (h.answer owner ok).collecting = h.collecting := by
    simp [collecting, answer, WriteCall.setRpc]
  unfold reply
  rw [hcollecting]
  rfl

theorem becomes_answer (owner : GoString) (ok : Bool) (h : Handler) :
    h.Becomes (h.answer owner ok) :=
  ⟨rfl, rfl, rfl, rfl, rfl, rfl, fun _ => ⟨reply_answer owner ok h, rfl⟩⟩

theorem becomes_send (owner : GoString) (ok : Bool) (h : Handler) : h.Becomes (h.send owner ok) :=
  ⟨rfl, rfl, rfl, rfl, rfl, rfl, fun _ => ⟨rfl, rfl⟩⟩

theorem becomes_take (h : Handler) : h.Becomes h.take := by
  rcases h.take_cases with heq | ⟨owner, ok, -, hrest, hlt, hacks, heq⟩
  · rw [heq]
    exact .rfl
  · -- it has not returned
    have hreply : h.reply = none := by
      unfold reply collecting
      rw [if_neg fun hdone => ?_]
      simp [hrest, hlt, hacks] at hdone
    rw [heq]
    exact ⟨rfl, rfl, rfl, rfl, rfl, rfl, fun hsome => absurd hreply hsome⟩

/-! ## What is counted -/

/-- **What a call has counted**, and for what. -/
structure Counted (c : Cluster) (h : Handler) : Prop where
  sound : h.call.Sound c
  acks : h.call.acks = h.own.toNat + (h.results.take h.taken).countP (·.2)
  own : h.own = true → h.call.self ∉ h.call.rest ∧ h.call.self ∈ h.call.targets ∧
    c.Applied h.call.self h.call.entry
  remotes : h.call.self ∉ h.call.remotes.map Rpc.owner
  idle : h.call.rest ≠ [] → h.results = []
  senders : (h.results.map Prod.fst).Nodup
  sent : ∀ x ∈ h.results, x.1 ∈ h.call.remotes.map Rpc.owner ∧
    (x.2 = true → c.Applied x.1 h.call.entry)
  reported : ∀ r ∈ h.call.remotes,
    r.reported = true ↔ r.owner ∈ (h.results.take h.taken).map Prod.fst
  taken : h.taken ≤ h.results.length

theorem Counted.mono (hc : h.Counted c) (hmono : ∀ n e, c.Applied n e → c'.Applied n e) :
    h.Counted c' where
  sound := hc.sound.mono hmono
  acks := hc.acks
  own := fun hown => ⟨(hc.own hown).1, (hc.own hown).2.1, hmono _ _ (hc.own hown).2.2⟩
  remotes := hc.remotes
  idle := hc.idle
  senders := hc.senders
  sent := fun x hx => ⟨(hc.sent x hx).1, fun hok => hmono _ _ ((hc.sent x hx).2 hok)⟩
  reported := hc.reported
  taken := hc.taken

theorem counted_start {self : GoString} {md : Metadata} {origin : Option (ℕ × GoString)}
    {e : StatEntry} : (start self nd md origin e).Counted c where
  sound := by
    refine WriteCall.sound_start ?_
    split_ifs
    · exact List.nodup_nil
    · exact Hasher.HashRing.getNodes_nodup _ _ _
  acks := rfl
  own := by simp [start]
  remotes := by simp [start, WriteCall.start]
  idle := fun _ => rfl
  senders := List.nodup_nil
  sent := by simp [start]
  reported := by simp [start, WriteCall.start]
  taken := le_rfl

theorem stores_eq_true : h.stores env nd fate = true ↔ h.call.rest.head? = some h.call.self ∧
    ∃ s, ((fate.action h.call.entry).exit env nd.lsm.store).1 = .returned s false := by
  unfold stores WriteCall.local?
  rw [Bool.and_eq_true, Option.isSome_iff_exists]
  refine and_congr ?_ ?_
  · simp [Option.filter_eq_some_iff]
  · cases ((fate.action h.call.entry).exit env nd.lsm.store).1 with
    | crashed d => simp
    | returned s err => simp

/-- **The loop body keeps the count**: it counts the node's own tree, once. -/
theorem Counted.look (hc : h.Counted c)
    (happlied : h.stores env nd fate = true → c.Applied h.call.self h.call.entry) :
    (h.look env nd fate).Counted c := by
  have hsound : (h.look env nd fate).call.Sound c := hc.sound.look fun s hexit hhead =>
    happlied (stores_eq_true.mpr ⟨hhead, s, hexit⟩)
  rcases h.look_cases env nd fate with ⟨heq, -⟩ | ⟨owner, rest, hrest, hstep⟩
  · rw [heq]
    exact hc
  · have hresults : h.results = [] := hc.idle (by rw [hrest]; exact List.cons_ne_nil _ _)
    rcases hstep with ⟨rfl, s, err, hexit, heq⟩ | ⟨hself, tried, htried, heq⟩
    · -- the node itself, which it comes to only once
      have hown : h.own = false := by
        by_contra hown
        exact (hc.own (by simpa using hown)).1 (by rw [hrest]; exact List.mem_cons_self ..)
      have hnodup := hc.sound.nodup
      rw [hrest, List.cons_append, List.nodup_cons] at hnodup
      rw [heq] at hsound ⊢
      refine ⟨hsound, ?_, ?_, hc.remotes, fun _ => hresults, hc.senders, hc.sent, hc.reported,
        hc.taken⟩
      · have hacks := hc.acks
        rw [hown, hresults] at hacks
        simp only [List.take_nil, List.countP_nil, Bool.toNat_false, Nat.add_zero] at hacks
        simp only [hacks, hown, hresults, List.take_nil, List.countP_nil, Bool.false_or]
        cases err <;> rfl
      · intro hstored
        rw [hown, Bool.false_or] at hstored
        have herr : err = false := by simpa using hstored
        subst herr
        refine ⟨fun hmem => hnodup.1 (List.mem_append_left _ hmem), ?_,
          happlied (stores_eq_true.mpr ⟨by rw [hrest]; rfl, s, hexit⟩)⟩
        exact hc.sound.targets _ (by rw [hrest]; simp)
    · rw [heq] at hsound ⊢
      refine ⟨hsound, hc.acks, ?_, ?_, fun _ => hresults, hc.senders, ?_, ?_, hc.taken⟩
      · intro hown
        obtain ⟨hnot, htarget, hown⟩ := hc.own hown
        exact ⟨fun hmem => hnot (by rw [hrest]; exact List.mem_cons_of_mem _ hmem), htarget, hown⟩
      · change h.call.self ∉ (h.call.remotes ++ tried).map Rpc.owner
        rw [List.map_append, List.mem_append, not_or]
        refine ⟨hc.remotes, ?_⟩
        rcases htried with rfl | rfl
        · exact List.not_mem_nil
        · simpa using fun heq : h.call.self = owner => hself heq.symm
      · rw [hresults]
        simp
      · intro r hr
        rcases List.mem_append.mp hr with hr | hr
        · exact hc.reported r hr
        · rcases htried with rfl | rfl
          · cases hr
          · rw [List.mem_singleton.mp hr, hresults]
            simp

theorem owners_answer (owner : GoString) (ok : Bool) (h : Handler) :
    (h.answer owner ok).call.remotes.map Rpc.owner = h.call.remotes.map Rpc.owner :=
  WriteCall.setRpc_owners h.call owner fun _ => rfl

/-- **An answer is not counted yet.** -/
theorem Counted.answer (hc : h.Counted c) (happlied : ok = true → c.Applied owner h.call.entry) :
    (h.answer owner ok).Counted c where
  sound := hc.sound.answered happlied
  acks := hc.acks
  own := hc.own
  remotes := by
    rw [owners_answer]
    exact hc.remotes
  idle := hc.idle
  senders := hc.senders
  sent := by
    rw [owners_answer]
    exact hc.sent
  reported := by
    intro r hr
    obtain ⟨r₀, hr₀, rfl⟩ := WriteCall.mem_setRpc hr
    split_ifs
    · exact hc.reported r₀ hr₀
    · exact hc.reported r₀ hr₀
  taken := hc.taken

/-- **A result that is sent is not counted yet**, and a success is earned. -/
theorem Counted.send (hc : h.Counted c) (hmay : h.maySend owner ok = true) :
    (h.send owner ok).Counted c := by
  obtain ⟨hrest, hnew, r, hr, hrowner, hserved⟩ := maySend_iff.mp hmay
  have htake : (h.results ++ [(owner, ok)]).take h.taken = h.results.take h.taken :=
    List.take_append_of_le_length hc.taken
  refine ⟨hc.sound, ?_, hc.own, hc.remotes, fun hne => absurd hrest hne, ?_, ?_, ?_, ?_⟩
  · exact hc.acks.trans (by rw [← htake]; rfl)
  · change ((h.results ++ [(owner, ok)]).map Prod.fst).Nodup
    rw [List.map_append, List.map_singleton, List.nodup_append']
    exact ⟨hc.senders, List.nodup_singleton _, by simpa using hnew⟩
  · intro x hx
    rcases List.mem_append.mp hx with hx | hx
    · exact hc.sent x hx
    · rw [List.mem_singleton.mp hx]
      exact ⟨List.mem_map.mpr ⟨r, hr, hrowner⟩,
        fun hok => hrowner ▸ hc.sound.served r hr (hserved hok)⟩
  · intro r hr
    rw [hc.reported r hr, ← htake]
    rfl
  · exact hc.taken.trans (by simp [Handler.send])

/-- **A result that is taken is counted**, once. -/
theorem Counted.take (hc : h.Counted c) : h.take.Counted c := by
  rcases h.take_cases with heq | ⟨owner, ok, hnext, hrest, hlt, hacks, heq⟩
  · rw [heq]
    exact hc
  · obtain ⟨hbound, hget⟩ := List.getElem?_eq_some_iff.mp hnext
    have htake : h.results.take (h.taken + 1) = h.results.take h.taken ++ [(owner, ok)] := by
      rw [List.take_add_one, hnext]
      rfl
    have hmem : (owner, ok) ∈ h.results := List.mem_of_getElem? hnext
    obtain ⟨howner, happlied⟩ := hc.sent _ hmem
    obtain ⟨r, hr, hrowner⟩ := List.mem_map.mp howner
    have howners : (h.call.report owner ok).remotes.map Rpc.owner
        = h.call.remotes.map Rpc.owner := WriteCall.setRpc_owners h.call owner fun _ => rfl
    -- its goroutine has not reported: it has sent nothing else
    have hunreported : r.reported = false := by
      have hnodup := hc.senders.sublist ((List.take_sublist (h.taken + 1) h.results).map Prod.fst)
      rw [htake, List.map_append, List.nodup_append'] at hnodup
      have hnot := mt (hc.reported r hr).mp (by
        rw [hrowner]
        exact fun hin => hnodup.2.2 hin (by simp))
      simpa using hnot
    rw [heq]
    refine ⟨hc.sound.reported hrest hr hrowner hunreported happlied, ?_, ?_, ?_,
      fun hne => absurd hrest hne, hc.senders, ?_, ?_, hbound⟩
    · simp only [WriteCall.report]
      rw [htake, List.countP_append, hc.acks]
      cases ok <;> simp [Nat.add_assoc]
    · exact hc.own
    · simp only [howners]
      exact hc.remotes
    · simp only [howners]
      exact hc.sent
    · intro r' hr'
      obtain ⟨r₀, hr₀, rfl⟩ := WriteCall.mem_setRpc hr'
      rw [htake, List.map_append, List.mem_append]
      split_ifs with howner
      · simp [howner]
      · rw [hc.reported r₀ hr₀]
        simp [howner]

/-! ## What it comes to -/

theorem Counted.nodup_remotes (hc : h.Counted c) : (h.call.remotes.map Rpc.owner).Nodup :=
  (List.nodup_append'.mp hc.sound.nodup).2.1

/-- Each goroutine sends at most once. -/
theorem Counted.senders_subperm (hc : h.Counted c) :
    (h.results.map Prod.fst).Subperm (h.call.remotes.map Rpc.owner) := by
  refine hc.senders.subperm fun x hx => ?_
  obtain ⟨y, hy, rfl⟩ := List.mem_map.mp hx
  exact (hc.sent y hy).1

theorem Counted.length_results (hc : h.Counted c) : h.results.length ≤ h.call.remotes.length := by
  simpa using hc.senders_subperm.length_le

/-- **The replicas that succeeded are counted by the successes sent.** -/
theorem Counted.succeeded_eq (hc : h.Counted c) : h.succeeded = h.results.countP (·.2) := by
  have hperm : ((h.call.remotes.map Rpc.owner).filter fun o => (o, true) ∈ h.results).Perm
      ((h.results.filter (·.2)).map Prod.fst) := by
    refine (List.perm_ext_iff_of_nodup (hc.nodup_remotes.filter _)
      (hc.senders.sublist (List.filter_sublist.map _))).mpr fun o => ?_
    rw [List.mem_filter, decide_eq_true_eq]
    constructor
    · rintro ⟨-, hmem⟩
      exact List.mem_map.mpr ⟨(o, true), List.mem_filter.mpr ⟨hmem, rfl⟩, rfl⟩
    · intro hmem
      obtain ⟨⟨x, b⟩, hx, rfl⟩ := List.mem_map.mp hmem
      obtain ⟨hx, hb⟩ := List.mem_filter.mp hx
      obtain rfl : b = true := hb
      exact ⟨(hc.sent _ hx).1, hx⟩
  have hlen := hperm.length_eq
  rw [List.length_map, ← List.countP_eq_length_filter, ← List.countP_eq_length_filter,
    List.countP_map] at hlen
  exact hlen

/-- **A call that has returned** says whether there are acknowledgements
enough, whatever results are still to come. -/
theorem Counted.reply_iff (hc : h.Counted c) (hreply : h.reply = some ok) :
    ok = true ↔ h.call.need ≤ h.own.toNat + h.succeeded := by
  obtain ⟨hrest, hcollecting, rfl⟩ := reply_eq_some.mp hreply
  have hacks := hc.acks
  have hsplit := congrArg (List.countP (·.2)) (List.take_append_drop h.taken h.results)
  rw [List.countP_append] at hsplit
  rw [decide_eq_true_eq, hc.succeeded_eq]
  constructor
  · intro hneed
    omega
  · intro hneed
    by_contra hlt
    -- the loop has ended with all results
    have hall : h.results.length ≤ h.taken :=
      hc.length_results.trans (((collecting_eq_false hrest).mp hcollecting).resolve_right hlt)
    rw [List.drop_of_length_le hall, List.countP_nil] at hsplit
    omega

/-- All have reported when as many results are taken as there are replicas. -/
theorem Counted.all_reported_iff (hc : h.Counted c) :
    (∀ r ∈ h.call.remotes, r.reported = true) ↔ h.call.remotes.length ≤ h.taken := by
  have htaken := List.length_take_le h.taken h.results
  constructor
  · intro hall
    have hsub : h.call.remotes.map Rpc.owner ⊆ (h.results.take h.taken).map Prod.fst := by
      intro x hx
      obtain ⟨r, hr, rfl⟩ := List.mem_map.mp hx
      exact (hc.reported r hr).mp (hall r hr)
    have hlen := (hc.nodup_remotes.subperm hsub).length_le
    rw [List.length_map, List.length_map] at hlen
    omega
  · intro hle r hr
    have hperm := hc.senders_subperm.perm_of_length_le (by
      have := hc.taken
      rw [List.length_map, List.length_map]
      omega)
    rw [hc.reported r hr, List.take_of_length_le (hc.length_results.trans hle)]
    exact hperm.mem_iff.mpr (List.mem_map.mpr ⟨r, hr, rfl⟩)

/-- **The call has returned where its loops have ended.** -/
theorem Counted.outcome_eq (hc : h.Counted c) : h.call.outcome = h.reply := by
  unfold WriteCall.outcome reply
  by_cases hrest : h.call.rest = []
  · have hcollecting := collecting_eq_false hrest
    have hall := hc.all_reported_iff
    by_cases hneed : h.call.need ≤ h.call.acks
    · simp [hrest, hneed, hcollecting]
    · simp [hrest, hneed, hcollecting, hall]
  · simp [hrest]

/-- **A call that returned success** has that many owners to show for it. -/
theorem Counted.success (hc : h.Counted c) (hok : h.reply = some true) :
    ∃ s : Finset GoString, max 1 (min writeQuorum h.call.owners.length) ≤ s.card ∧
      ∀ x ∈ s, x ∈ h.call.targets ∧ c.Applied x h.call.entry :=
  hc.sound.success (hc.outcome_eq.trans hok)

/-- **A call that has no owners tries no replica.** -/
theorem Counted.remotes_eq_nil (hc : h.Counted c) (howners : h.call.owners = []) :
    h.call.remotes = [] := by
  refine List.eq_nil_iff_forall_not_mem.mpr fun r hr => ?_
  have hmem : r.owner ∈ h.call.remotes.map Rpc.owner := List.mem_map.mpr ⟨r, hr, rfl⟩
  have htarget := hc.sound.targets r.owner (List.mem_append_right _ hmem)
  rw [WriteCall.targets, if_pos howners, List.mem_singleton] at htarget
  exact hc.remotes (htarget ▸ hmem)

end Handler

end Metastore

end TftAnalytics

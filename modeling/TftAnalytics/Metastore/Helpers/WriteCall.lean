import TftAnalytics.Metastore.Helpers.Cluster
import TftAnalytics.Hasher.Helpers.HashRing
/-!
# Metastore — what the acknowledgements of a write stand for

Helper layer. Every acknowledgement a call of `Write` has counted stands
for an owner of its own whose tree has applied the entry: the loop comes
to each owner once, and each replica reports once.
-/

namespace TftAnalytics

namespace Metastore

open Hasher Peers

variable {env : Env} {maxMemBytes : ℤ} {c c' : Cluster} {w : WriteCall} {nd : Node} {fate : Fate}
variable {x : GoString} {ok : Bool}

/-- An element of a list with one element changed. -/
theorem mem_modify {α : Type*} {l : List α} {k : ℕ} {f : α → α} {a : α} (h : a ∈ l.modify k f) :
    a ∈ l ∨ ∃ b, l[k]? = some b ∧ a = f b := by
  obtain ⟨j, hj⟩ := List.mem_iff_getElem?.mp h
  rw [List.getElem?_modify] at hj
  obtain ⟨b, hb, rfl⟩ := Option.map_eq_some_iff.mp hj
  by_cases hk : k = j
  · subst hk
    exact Or.inr ⟨b, hb, if_pos rfl⟩
  · rw [if_neg hk]
    exact Or.inl (List.mem_iff_getElem?.mpr ⟨j, hb⟩)

namespace WriteCall

/-- The nodes a call writes to: the owners, or the node itself. -/
def targets (w : WriteCall) : List GoString := if w.owners = [] then [w.self] else w.owners

/-- **What a call of `Write` has achieved.** -/
structure Sound (c : Cluster) (w : WriteCall) : Prop where
  need : w.need = max 1 (min writeQuorum w.owners.length)
  nodup : (w.rest ++ w.remotes.map Rpc.owner).Nodup
  targets : ∀ x ∈ w.rest ++ w.remotes.map Rpc.owner, x ∈ w.targets
  served : ∀ r ∈ w.remotes, r.served = some true → c.Applied r.owner w.entry
  acked : ∃ s : Finset GoString, s.card = w.acks ∧ ∀ x ∈ s, x ∈ w.targets ∧
    c.Applied x w.entry ∧ x ∉ w.rest ∧ ∀ r ∈ w.remotes, r.owner = x → r.reported = true

theorem Sound.mono (h : w.Sound c) (hmono : ∀ n e, c.Applied n e → c'.Applied n e) :
    w.Sound c' := by
  obtain ⟨s, hcard, hs⟩ := h.acked
  exact ⟨h.need, h.nodup, h.targets, fun r hr hok => hmono _ _ (h.served r hr hok), s, hcard,
    fun x hx => ⟨(hs x hx).1, hmono _ _ (hs x hx).2.1, (hs x hx).2.2⟩⟩

theorem sound_start {self : GoString} {boot : ℕ} {e : StatEntry} {owners : List GoString}
    (h : owners.Nodup) : (start self boot e owners).Sound c where
  need := by
    unfold start
    split_ifs with hnil
    · simp [hnil]
    · have hpos : 0 < owners.length := List.length_pos_iff.mpr hnil
      simp only [writeQuorum]
      omega
  nodup := by
    unfold start
    split_ifs
    · simp
    · simpa using h
  targets := by
    simp only [start, WriteCall.targets, List.map_nil, List.append_nil]
    exact fun _ hx => hx
  served := by simp [start]
  acked := ⟨∅, rfl, by simp⟩

/-- **The loop body**: an owner less to come to, and at most one
acknowledgement more, which the node's own tree has earned. -/
theorem Sound.look (h : w.Sound c')
    (happlied : ∀ s, ((fate.action w.entry).exit env nd.lsm.store).1 = .returned s false →
      w.rest.head? = some w.self → c'.Applied w.self w.entry) :
    (w.look env nd fate).Sound c' := by
  unfold WriteCall.look
  cases hrest : w.rest with
  | nil => exact h
  | cons owner rest =>
    obtain ⟨s, hcard, hs⟩ := h.acked
    have hnodup := h.nodup
    have htargets := h.targets
    simp only [hrest, List.cons_append, List.nodup_cons, List.mem_append, not_or] at hnodup
    simp only [hrest, List.cons_append, List.forall_mem_cons] at htargets
    -- who was counted is so when the owner is passed over
    have hkept : ∀ y ∈ s, y ∈ w.targets ∧ c'.Applied y w.entry ∧ y ∉ rest ∧
        ∀ r ∈ w.remotes, r.owner = y → r.reported = true := fun y hy =>
      ⟨(hs y hy).1, (hs y hy).2.1, fun hmem => (hs y hy).2.2.1 (by simp [hrest, hmem]),
        (hs y hy).2.2.2⟩
    have hother : ∀ y ∈ s, y ≠ owner := fun y hy heq => (hs y hy).2.2.1 (by simp [hrest, heq])
    simp only
    split_ifs with hself hlive
    · -- the node itself
      split
      · exact h
      · rename_i s' err hexit
        refine ⟨h.need, hnodup.2, htargets.2, h.served, ?_⟩
        cases err with
        | true => exact ⟨s, hcard, hkept⟩
        | false =>
          have hnew : owner ∉ s := fun hmem => hother owner hmem rfl
          refine ⟨insert owner s, ?_, fun y hy => ?_⟩
          · rw [Finset.card_insert_of_notMem hnew, hcard]
            rfl
          · rcases Finset.mem_insert.mp hy with rfl | hy
            · refine ⟨htargets.1, ?_, hnodup.1.1, fun r hr hy => ?_⟩
              · exact hself ▸ happlied s' hexit (by rw [hrest, hself]; rfl)
              · exact absurd (List.mem_map.mpr ⟨r, hr, hy⟩) hnodup.1.2
            · exact hkept y hy
    · -- a replica, to be sent the entry
      refine ⟨h.need, ?_, ?_, ?_, s, hcard,
        fun y hy => ⟨(hs y hy).1, (hs y hy).2.1, (hkept y hy).2.2.1, ?_⟩⟩
      · simp only [List.map_append, List.map_cons, List.map_nil, ← List.append_assoc]
        rw [List.nodup_append']
        refine ⟨hnodup.2, List.nodup_singleton _, ?_⟩
        simpa using hnodup.1
      · simp only [List.map_append, List.map_cons, List.map_nil, ← List.append_assoc]
        intro y hy
        rcases List.mem_append.mp hy with hy | hy
        · exact htargets.2 y hy
        · rw [List.mem_singleton.mp hy]
          exact htargets.1
      · intro r hr hok
        rcases List.mem_append.mp hr with hr | hr
        · exact h.served r hr hok
        · rw [List.mem_singleton.mp hr] at hok
          cases hok
      · intro r hr heq
        rcases List.mem_append.mp hr with hr | hr
        · exact (hs y hy).2.2.2 r hr heq
        · rw [List.mem_singleton.mp hr] at heq
          exact absurd heq.symm (hother y hy)
    · -- a replica that is not held alive
      exact ⟨h.need, hnodup.2, htargets.2, h.served, s, hcard, hkept⟩

@[simp] theorem setRpc_owners (w : WriteCall) (owner : GoString) {f : Rpc → Rpc}
    (hf : ∀ r, (f r).owner = r.owner) :
    (w.setRpc owner f).remotes.map Rpc.owner = w.remotes.map Rpc.owner := by
  simp only [setRpc, List.map_map]
  refine List.map_congr_left fun r _ => ?_
  simp only [Function.comp_apply]
  split_ifs
  · exact hf r
  · rfl

theorem mem_setRpc {owner : GoString} {f : Rpc → Rpc} {r : Rpc}
    (h : r ∈ (w.setRpc owner f).remotes) :
    ∃ r₀ ∈ w.remotes, r = if r₀.owner = owner then f r₀ else r₀ := by
  obtain ⟨r₀, hr₀, rfl⟩ := List.mem_map.mp h
  exact ⟨r₀, hr₀, rfl⟩

/-- **A request changes** at one replica: it stays with its owner, what it
was served is earned, and what has reported stays so. -/
theorem Sound.setRpc (h : w.Sound c') (owner : GoString) {f : Rpc → Rpc}
    (howner : ∀ r, (f r).owner = r.owner)
    (hserved : ∀ r ∈ w.remotes, r.owner = owner → (f r).served = some true →
      c'.Applied owner w.entry)
    (hreported : ∀ r, r.reported = true → (f r).reported = true) :
    (w.setRpc owner f).Sound c' := by
  obtain ⟨s, hcard, hs⟩ := h.acked
  refine ⟨h.need, ?_, ?_, ?_, s, hcard,
    fun y hy => ⟨(hs y hy).1, (hs y hy).2.1, (hs y hy).2.2.1, ?_⟩⟩
  · rw [setRpc_owners w owner howner]
    exact h.nodup
  · rw [setRpc_owners w owner howner]
    exact h.targets
  · intro r hr hok
    obtain ⟨r₀, hr₀, rfl⟩ := mem_setRpc hr
    split_ifs at hok ⊢ with hown
    · rw [howner, hown]
      exact hserved r₀ hr₀ hown hok
    · exact h.served r₀ hr₀ hok
  · intro r hr heq
    obtain ⟨r₀, hr₀, rfl⟩ := mem_setRpc hr
    split_ifs at heq ⊢
    · rw [howner] at heq
      exact hreported r₀ ((hs y hy).2.2.2 r₀ hr₀ heq)
    · exact (hs y hy).2.2.2 r₀ hr₀ heq

/-- **A replica has answered**: a success is earned by its tree. -/
theorem Sound.answered (h : w.Sound c') {owner : GoString}
    (happlied : ok = true → c'.Applied owner w.entry) :
    (w.setRpc owner fun r => { r with served := some ok }).Sound c' :=
  h.setRpc owner (fun _ => rfl) (fun _ _ _ hok => happlied (Option.some.inj hok)) fun _ hr => hr

theorem Sound.serve (h : w.Sound c') {owner : GoString}
    (happlied : ∀ s, ((fate.action w.entry).exit env nd.lsm.store).1 = .returned s false →
      c'.Applied owner w.entry) :
    (w.serve env nd fate owner).Sound c' := by
  unfold WriteCall.serve
  refine h.answered fun hok => ?_
  split at hok
  · cases hok
  · rename_i s err hexit
    cases err with
    | true => cases hok
    | false => exact happlied s hexit

/-- **A result is counted**: a success is that of a replica that has not
reported before. -/
theorem Sound.reported (h : w.Sound c) {owner : GoString} (hrest : w.rest = []) {r₁ : Rpc}
    (hr₁ : r₁ ∈ w.remotes) (howner : r₁.owner = owner) (hunreported : r₁.reported = false)
    (happlied : ok = true → c.Applied owner w.entry) : (w.report owner ok).Sound c := by
  have hset : (w.setRpc owner fun r => { r with reported := true }).Sound c :=
    h.setRpc owner (fun _ => rfl) (fun r hr hown hok => hown ▸ h.served r hr hok) fun _ _ => rfl
  cases ok with
  | false => exact hset
  | true =>
    obtain ⟨s, hcard, hs⟩ := h.acked
    -- nobody is counted twice: this request had not reported
    have hnew : owner ∉ s := by
      intro hmem
      rw [(hs owner hmem).2.2.2 r₁ hr₁ howner] at hunreported
      cases hunreported
    refine ⟨hset.need, hset.nodup, hset.targets, hset.served, insert owner s,
      by simp [WriteCall.report, Finset.card_insert_of_notMem hnew, hcard], fun y hy => ?_⟩
    rcases Finset.mem_insert.mp hy with rfl | hy
    · refine ⟨h.targets y ?_, happlied rfl, by simp [WriteCall.report, WriteCall.setRpc, hrest],
        fun r hr heq => ?_⟩
      · exact List.mem_append_right _ (List.mem_map.mpr ⟨r₁, hr₁, howner⟩)
      · obtain ⟨r₀, hr₀, rfl⟩ := mem_setRpc hr
        split_ifs at heq ⊢ with hown
        · rfl
        · exact absurd heq hown
    · -- who was counted has reported, and stays so
      refine ⟨(hs y hy).1, (hs y hy).2.1, (hs y hy).2.2.1, fun r hr heq => ?_⟩
      obtain ⟨r₀, hr₀, rfl⟩ := mem_setRpc hr
      split_ifs at heq ⊢
      · rfl
      · exact (hs y hy).2.2.2 r₀ hr₀ heq

/-- **A result comes in.** -/
theorem Sound.report (h : w.Sound c) {owner : GoString} (hmay : w.mayReport owner ok = true) :
    (w.report owner ok).Sound c := by
  simp only [mayReport, Bool.decide_and, Bool.and_eq_true, decide_eq_true_eq] at hmay
  obtain ⟨hrest, -, r₁, hr₁, howner, hunreported, hserved⟩ := hmay
  exact h.reported hrest hr₁ howner hunreported fun hok =>
    howner ▸ h.served r₁ hr₁ (hserved hok)

/-- **A call that returned success** has that many nodes to show for it. -/
theorem Sound.success (h : w.Sound c) (hok : w.outcome = some true) :
    ∃ s : Finset GoString, max 1 (min writeQuorum w.owners.length) ≤ s.card ∧
      ∀ x ∈ s, x ∈ w.targets ∧ c.Applied x w.entry := by
  obtain ⟨s, hcard, hs⟩ := h.acked
  unfold outcome at hok
  split_ifs at hok with hrest hacks hall
  · refine ⟨s, ?_, fun x hx => ⟨(hs x hx).1, (hs x hx).2.1⟩⟩
    rw [hcard, ← h.need]
    exact hacks
  · cases hok

end WriteCall

/-- **One event of a cluster keeps every call of `Write` sound.** -/
theorem Cluster.sound_step (hsound : ∀ w ∈ c.writes, w.Sound c) (ev : Event) :
    ∀ w ∈ (c.step env maxMemBytes ev).writes, w.Sound (c.step env maxMemBytes ev) := by
  have hmono : ∀ w ∈ c.writes, w.Sound (c.step env maxMemBytes ev) :=
    fun w hw => (hsound w hw).mono fun _ _ h => h.step ev
  intro w hw
  cases ev with
  | startWrite n e =>
    rcases List.mem_append.mp hw with hw | hw
    · exact hmono w hw
    · obtain ⟨nd, -, rfl⟩ := Option.map_eq_some_iff.mp (Option.mem_toList.mp hw)
      exact WriteCall.sound_start (HashRing.getNodes_nodup _ _ _)
  | writeLook k fate =>
    rcases mem_modify hw with hw | ⟨w₀, hk, rfl⟩
    · exact hmono w hw
    · have hw₀ := hmono w₀ (List.mem_of_getElem? hk)
      split
      · rename_i nd hnd
        refine hw₀.look fun s hexit hhead => ?_
        refine Cluster.applied_of_returned (Cluster.running_of_coordinator hnd) ?_ hexit
        simp [Cluster.deed, hk, hnd, WriteCall.local?, hhead]
      · exact hw₀
  | writeServe k owner fate =>
    rcases mem_modify hw with hw | ⟨w₀, hk, rfl⟩
    · exact hmono w hw
    · have hw₀ := hmono w₀ (List.mem_of_getElem? hk)
      split
      · rename_i nd hreq hnd
        refine hw₀.serve fun s hexit => Cluster.applied_of_returned hnd ?_ hexit
        simp [Cluster.deed, hk, hreq]
      · exact hw₀
  | writeReport k owner ok =>
    rcases mem_modify hw with hw | ⟨w₀, hk, rfl⟩
    · exact hmono w hw
    · have hw₀ := hmono w₀ (List.mem_of_getElem? hk)
      split
      · rename_i hmay _
        exact hw₀.report hmay
      · exact hw₀
  | _ => exact hmono w hw

/-- **Along every run, the acknowledgements of every call stand for nodes
that have applied the entry.** -/
theorem Cluster.sound_run (c : Cluster) (env : Env) (maxMemBytes : ℤ)
    (hsound : ∀ w ∈ c.writes, w.Sound c) (evs : List Event) :
    ∀ w ∈ (c.run env maxMemBytes evs).writes, w.Sound (c.run env maxMemBytes evs) := by
  unfold Cluster.run
  induction evs generalizing c with
  | nil => exact hsound
  | cons ev evs ih => exact ih _ (Cluster.sound_step hsound ev)

end Metastore

end TftAnalytics

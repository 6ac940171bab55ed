import TftAnalytics.Hasher.Helpers.Walk
import TftAnalytics.Metastore.Helpers.FanOut
import TftAnalytics.Metastore.Helpers.Rings
/-!
# Metastore — what becomes of the calls of `Write`

Helper layer. The nodes go through a run of a cluster, and a call goes on
being the call it was; so every count is kept, the calls of goroutines are
replica writes of an owner's, and a call ends when its goroutines have.
-/

namespace TftAnalytics

namespace Metastore

open Hasher Peers

variable {env : Env} {maxMemBytes : ℤ} {c : Cluster} {n : GoString} {nd : Node}

/-! ## Owners -/

/-- **A node is on its own ring**, so there is an owner for every key. -/
theorem Node.Placed.owners_ne_nil (h : nd.Placed env maxMemBytes n) (key : GoString) :
    nd.owners key ≠ [] := by
  have hwf : nd.member.host.ring.Wf := h.rooted.wf
  obtain ⟨slot, hslot, -⟩ := hwf.owns h.rooted.own
  have hwalk : nd.member.host.ring.walk crc32 key ≠ [] :=
    mt (HashRing.ring_eq_nil_iff key).mpr (List.ne_nil_of_mem hslot)
  rw [Node.owners, hwf.getNodes_eq]
  intro hnil
  rcases List.take_eq_nil_iff.mp hnil with hzero | hdups
  · cases hzero
  · have hhead := head?_eraseDups (nd.member.host.ring.walk crc32 key)
    rw [hdups, List.head?_nil] at hhead
    exact hwalk (List.head?_eq_none_iff.mp hhead.symm)

/-! ## Nodes -/

/-- What a tree has applied is seen in the nodes. -/
theorem Cluster.applied_congr {c' : Cluster} (h : c.nodes = c'.nodes) {e : StatEntry} :
    c.Applied n e ↔ c'.Applied n e := by
  rw [Cluster.Applied, Cluster.Applied, Cluster.lsm, Cluster.lsm, h]

/-- **What happens to the nodes of a cluster can happen to them whatever
calls there are.** -/
theorem Cluster.nodes_step_of_eq {c' : Cluster} (h : c.nodes = c'.nodes) (ev : Event) :
    ∃ evs, (c.step env maxMemBytes ev).nodes = (c'.run env maxMemBytes evs).nodes := by
  have hdone : ∀ {x d}, c.deed ev = some (x, d) → ∀ {ev'}, c'.deed ev' = some (x, d) →
      (c.step env maxMemBytes ev).nodes = (c'.step env maxMemBytes ev').nodes := by
    intro x d hdeed ev' hdeed'
    funext n
    simp only [Cluster.step, Cluster.stepNodes, hdeed, hdeed', h]
  rcases hdeed : c.deed ev with _ | ⟨x, d⟩
  · refine ⟨[], ?_⟩
    funext n
    simp only [Cluster.step, Cluster.stepNodes, hdeed, h]
    rfl
  · cases d with
    | member mev => exact ⟨[.member x mev], hdone hdeed rfl⟩
    | restart => exact ⟨[.restart x], hdone hdeed rfl⟩

namespace FanOut

variable {s : FanOut} {ev : FanOut.Event} {h h' : Handler} {k : ℕ}

theorem run_append (s : FanOut) (evs evs' : List FanOut.Event) :
    s.run env maxMemBytes (evs ++ evs') = (s.run env maxMemBytes evs).run env maxMemBytes evs' :=
  List.foldl_append

/-- **What becomes of the nodes**: nothing, or what becomes of a cluster's. -/
theorem nodes_step (env : Env) (maxMemBytes : ℤ) (s : FanOut) (ev : FanOut.Event) :
    (s.step env maxMemBytes ev).nodes = s.nodes ∨ ∃ cev, ev.deed? = some cev ∧
      (s.step env maxMemBytes ev).nodes = (s.cluster.step env maxMemBytes cev).nodes := by
  cases hev : ev.deed? with
  | none =>
    refine Or.inl ?_
    simp only [step, stepNodes, hev]
  | some cev =>
    refine Or.inr ⟨cev, rfl, ?_⟩
    simp only [step, stepNodes, hev]
    rfl

/-- **The nodes go through a run of a cluster.** -/
theorem nodes_run (env : Env) (maxMemBytes : ℤ) (config : AList fun _ : GoString => List GoString)
    (evs : List FanOut.Event) : ∃ evs', (after env maxMemBytes config evs).nodes
      = (Cluster.after env maxMemBytes config evs').nodes := by
  induction evs using List.reverseRecOn with
  | nil => exact ⟨[], rfl⟩
  | append_singleton evs ev ih =>
    obtain ⟨evs', hevs'⟩ := ih
    set s := after env maxMemBytes config evs with hs
    have hstep : after env maxMemBytes config (evs ++ [ev]) = s.step env maxMemBytes ev :=
      run_append ..
    rw [hstep]
    rcases s.nodes_step env maxMemBytes ev with heq | ⟨cev, -, heq⟩ <;> rw [heq]
    · exact ⟨evs', hevs'⟩
    · obtain ⟨more, hmore⟩ := Cluster.nodes_step_of_eq (c := s.cluster) hevs' cev
      exact ⟨evs' ++ more, by rw [Cluster.after_append, hmore]⟩

theorem writes_cluster (hk : s.handlers[k]? = some h) : s.cluster.writes[k]? = some h.call := by
  simp [cluster, hk]

/-- What the loop body does when it comes to the node itself. -/
theorem deed_look (hk : s.handlers[k]? = some h) (hnd : s.runner h = some nd)
    (hhead : h.call.rest.head? = some h.call.self) (fate : Fate) :
    s.cluster.deed (.writeLook k fate)
      = some (h.call.self, .member (.serve (fate.action h.call.entry))) := by
  have hcoord : s.cluster.coordinator h.call.self h.call.boot = some nd := hnd
  simp [Cluster.deed, writes_cluster hk, hcoord, WriteCall.local?, hhead]

/-- **No tree forgets what it has applied.** -/
theorem applied_step {e : StatEntry} (happlied : s.cluster.Applied n e) (ev : FanOut.Event) :
    (s.step env maxMemBytes ev).cluster.Applied n e := by
  rcases s.nodes_step env maxMemBytes ev with heq | ⟨cev, -, heq⟩
  · exact (Cluster.applied_congr heq).mpr happlied
  · exact (Cluster.applied_congr heq).mpr (happlied.step cev)

/-! ## Calls -/

/-- A call that is new: a client's, or one that a goroutine makes. -/
def New (s : FanOut) (h : Handler) : Prop :=
  (∃ n, ∃ nd ∈ s.cluster.running n, ∃ md e, h = .start n nd md none e) ∨
    ∃ k owner, s.delivery k owner = some h

/-- **What becomes of the calls**: one of them moves on, or a new one comes
in. -/
theorem handlers_step (env : Env) (maxMemBytes : ℤ) (s : FanOut) (ev : FanOut.Event) :
    (∃ j, ∃ f : Handler → Handler, (∀ h : Handler, h.Becomes (f h)) ∧
      (s.step env maxMemBytes ev).handlers = s.handlers.modify j f) ∨
    ∃ hs, (∀ h ∈ hs, s.New h) ∧ (s.step env maxMemBytes ev).handlers = s.handlers ++ hs := by
  have hsame : (s.step env maxMemBytes ev).handlers = s.handlers →
      ∃ hs, (∀ h ∈ hs, s.New h) ∧ (s.step env maxMemBytes ev).handlers = s.handlers ++ hs :=
    fun heq => ⟨[], by simp, by rw [heq, List.append_nil]⟩
  cases ev with
  | member x mev => exact Or.inr (hsame rfl)
  | restart x => exact Or.inr (hsame rfl)
  | write x md entry =>
    refine Or.inr ⟨_, fun h hh => Or.inl ?_, rfl⟩
    obtain ⟨nd, hnd, hh⟩ := Option.bind_eq_some_iff.mp (Option.mem_toList.mp hh)
    obtain ⟨e, -, rfl⟩ := Option.map_eq_some_iff.mp hh
    exact ⟨x, nd, hnd, md, e, rfl⟩
  | deliver j owner =>
    exact Or.inr ⟨_, fun h hh => Or.inr ⟨j, owner, Option.mem_toList.mp hh⟩, rfl⟩
  | look j fate =>
    refine Or.inl ⟨j, _, fun h => ?_, rfl⟩
    split
    · exact h.becomes_look ..
    · exact .rfl
  -- the reply goes to the call that waits for it, if one does
  | respond j =>
    cases hresponse : s.response j with
    | none =>
      refine Or.inr (hsame ?_)
      simp only [step, stepHandlers, hresponse]
    | some x =>
      refine Or.inl ⟨x.1.1, _, fun h => h.becomes_answer x.1.2 x.2, ?_⟩
      simp only [step, stepHandlers, hresponse]
  | send j owner ok =>
    refine Or.inl ⟨j, _, fun h => ?_, rfl⟩
    split
    · exact h.becomes_send ..
    · exact .rfl
  | take j =>
    refine Or.inl ⟨j, _, fun h => ?_, rfl⟩
    split
    · exact h.becomes_take
    · exact .rfl

/-- **A call goes on being the call it was.** -/
theorem becomes_step (env : Env) (maxMemBytes : ℤ) (hk : s.handlers[k]? = some h)
    (ev : FanOut.Event) :
    ∃ h', (s.step env maxMemBytes ev).handlers[k]? = some h' ∧ h.Becomes h' := by
  rcases s.handlers_step env maxMemBytes ev with
    ⟨j, f, hf, heq⟩ | ⟨hs, -, heq⟩
  · rw [heq, List.getElem?_modify, hk]
    split_ifs
    · exact ⟨f h, rfl, hf h⟩
    · exact ⟨h, rfl, .rfl⟩
  · rw [heq, List.getElem?_append_left (List.getElem?_eq_some_iff.mp hk).1, hk]
    exact ⟨h, rfl, .rfl⟩

/-- A call there is was there before, or is new. -/
theorem of_mem_step (hh : h ∈ (s.step env maxMemBytes ev).handlers) :
    (∃ h₀ ∈ s.handlers, h₀.Becomes h) ∨ s.New h := by
  rcases s.handlers_step env maxMemBytes ev with
    ⟨j, f, hf, heq⟩ | ⟨hs, hnew, heq⟩ <;> rw [heq] at hh
  · rcases mem_modify hh with hold | ⟨h₀, hk, rfl⟩
    · exact Or.inl ⟨h, hold, .rfl⟩
    · exact Or.inl ⟨h₀, List.mem_of_getElem? hk, hf h₀⟩
  · exact (List.mem_append.mp hh).imp (fun hold => ⟨h, hold, .rfl⟩) (hnew h)

theorem becomes_run (env : Env) (maxMemBytes : ℤ) (hk : s.handlers[k]? = some h)
    (evs : List FanOut.Event) :
    ∃ h', (s.run env maxMemBytes evs).handlers[k]? = some h' ∧ h.Becomes h' := by
  induction evs generalizing s h with
  | nil => exact ⟨h, hk, .rfl⟩
  | cons ev evs ih =>
    obtain ⟨h₁, hk₁, hbecomes₁⟩ := becomes_step env maxMemBytes hk ev
    obtain ⟨h₂, hk₂, hbecomes₂⟩ := ih hk₁
    exact ⟨h₂, hk₂, hbecomes₁.trans hbecomes₂⟩

/-! ## All calls -/

/-- **What the call of a goroutine is**: a replica write, at the owner it is
for, of the entry of a call that is none. -/
structure Forwarded (s : FanOut) (h : Handler) (k : ℕ) (owner : GoString) : Prop where
  replica : isReplica h.md = true
  target : h.call.self = owner
  sender : ∃ h₀, s.handlers[k]? = some h₀ ∧ isReplica h₀.md = false ∧
    owner ∈ h₀.call.owners ∧ h₀.call.entry = h.call.entry

/-- **What holds of all calls.** -/
structure Sound (s : FanOut) : Prop where
  counted : ∀ h ∈ s.handlers, h.Counted s.cluster
  replica : ∀ h ∈ s.handlers, isReplica h.md = true → h.call.owners = []
  forwarded : ∀ h ∈ s.handlers, ∀ k owner, h.origin = some (k, owner) → s.Forwarded h k owner

theorem isReplica_replicaMetadata : isReplica replicaMetadata = true := by
  rw [isReplica, replicaMetadata, AList.lookup_insert]
  rfl

theorem owners_start {md : Metadata} {origin : Option (ℕ × GoString)} {e : StatEntry}
    (hmd : isReplica md = true) : (Handler.start n nd md origin e).call.owners = [] := by
  simp only [Handler.start, WriteCall.start, hmd, if_true]

/-- **A replica write that succeeds** has been applied where it was sent. -/
theorem Sound.applied_of_reply (hs : s.Sound) (hh : h ∈ s.handlers) {owner : GoString}
    (horigin : h.origin = some (k, owner)) (hok : h.reply = some true) :
    s.cluster.Applied owner h.call.entry := by
  have hforwarded := hs.forwarded h hh k owner horigin
  have howners := hs.replica h hh hforwarded.replica
  obtain ⟨t, hcard, ht⟩ := (hs.counted h hh).success hok
  have hpos : 0 < t.card := lt_of_lt_of_le Nat.one_pos ((le_max_left _ _).trans hcard)
  obtain ⟨x, hx⟩ := Finset.card_pos.mp hpos
  obtain ⟨htarget, happlied⟩ := ht x hx
  rw [WriteCall.targets, if_pos howners, List.mem_singleton, hforwarded.target] at htarget
  exact htarget ▸ happlied

/-- **A write to the node's own tree that returns `nil`** is applied there. -/
theorem applied_of_stores {fate : Fate} (hk : s.handlers[k]? = some h) (hnd : s.runner h = some nd)
    (hstores : h.stores env nd fate = true) :
    (s.step env maxMemBytes (.look k fate)).cluster.Applied h.call.self h.call.entry := by
  obtain ⟨hhead, st, hexit⟩ := Handler.stores_eq_true.mp hstores
  exact (Cluster.applied_congr rfl).mp (Cluster.applied_of_returned
    (Cluster.running_of_coordinator hnd) (deed_look hk hnd hhead fate) hexit)

/-- **An answer that says success** is of a replica that has applied the
entry. -/
theorem Sound.applied_of_response (hs : s.Sound) {p : ℕ} {owner : GoString} {h₀ : Handler}
    (hresponse : s.response k = some ((p, owner), true)) (hp : s.handlers[p]? = some h₀) :
    s.cluster.Applied owner h₀.call.entry := by
  obtain ⟨h₁, hk, hresponse⟩ := Option.bind_eq_some_iff.mp hresponse
  obtain ⟨origin, horigin, hresponse⟩ := Option.bind_eq_some_iff.mp hresponse
  obtain ⟨ok, hreply, hok⟩ := Option.map_eq_some_iff.mp hresponse
  rw [Prod.mk.injEq] at hok
  obtain ⟨rfl, rfl⟩ := hok
  -- the call that answers is of the same entry
  have hh₁ := List.mem_of_getElem? hk
  obtain ⟨h₂, hp₂, -, -, hentry⟩ := (hs.forwarded h₁ hh₁ p owner horigin).sender
  obtain rfl : h₀ = h₂ := Option.some.inj (hp.symm.trans hp₂)
  exact hentry ▸ hs.applied_of_reply hh₁ horigin hreply

theorem counted_modify {hs : List Handler} {f : Handler → Handler}
    (hcounted : ∀ h ∈ hs, h.Counted c) (hf : ∀ h, hs[k]? = some h → h.Counted c → (f h).Counted c) :
    ∀ h ∈ hs.modify k f, h.Counted c := by
  intro h hh
  rcases mem_modify hh with hold | ⟨h₀, hk, rfl⟩
  · exact hcounted h hold
  · exact hf h₀ hk (hcounted h₀ (List.mem_of_getElem? hk))

/-- **One event keeps every count.** -/
theorem Sound.counted_step (hs : s.Sound) (ev : FanOut.Event) :
    ∀ h ∈ (s.step env maxMemBytes ev).handlers,
      h.Counted (s.step env maxMemBytes ev).cluster := by
  have hmono : ∀ h ∈ s.handlers, h.Counted (s.step env maxMemBytes ev).cluster :=
    fun h hh => (hs.counted h hh).mono fun _ _ happlied => applied_step happlied ev
  -- calls made by others stay as they are, and what is applied stays applied
  cases ev with
  | member x mev => exact hmono
  | restart x => exact hmono
  | write x md entry =>
    intro h hh
    rcases List.mem_append.mp hh with hh | hh
    · exact hmono h hh
    · obtain ⟨nd, -, hh⟩ := Option.bind_eq_some_iff.mp (Option.mem_toList.mp hh)
      obtain ⟨e, -, rfl⟩ := Option.map_eq_some_iff.mp hh
      exact Handler.counted_start
  | deliver j owner =>
    intro h hh
    rcases List.mem_append.mp hh with hh | hh
    · exact hmono h hh
    · obtain ⟨h₀, -, hh⟩ := Option.bind_eq_some_iff.mp (Option.mem_toList.mp hh)
      split_ifs at hh
      obtain ⟨nd, -, rfl⟩ := Option.map_eq_some_iff.mp hh
      exact Handler.counted_start
  | look j fate =>
    refine counted_modify hmono fun h hj hcounted => ?_
    split
    · rename_i nd hnd
      exact hcounted.look (applied_of_stores hj hnd)
    · exact hcounted
  | respond j =>
    rcases hresponse : s.response j with _ | ⟨⟨p, owner⟩, ok⟩
    · simp only [step, stepHandlers, hresponse] at hmono ⊢
      exact hmono
    · simp only [step, stepHandlers, hresponse] at hmono ⊢
      refine counted_modify hmono fun h hp hcounted => hcounted.answer fun hok => ?_
      -- a reply that says it succeeded was sent by a node that applied the entry
      subst hok
      exact applied_step (hs.applied_of_response hresponse hp) (.respond j)
  | send j owner ok =>
    refine counted_modify hmono fun h _ hcounted => ?_
    split
    · rename_i hmay
      exact hcounted.send hmay
    · exact hcounted
  | take j =>
    refine counted_modify hmono fun h _ hcounted => ?_
    split
    · exact hcounted.take
    · exact hcounted

/-- A call that a goroutine makes is forwarded by a call that is not. -/
theorem Sound.forwarded_delivery (hs : s.Sound) {owner : GoString}
    (hdelivery : s.delivery k owner = some h) :
    h.origin = some (k, owner) ∧ s.Forwarded h k owner := by
  obtain ⟨h₀, hk, hh⟩ := Option.bind_eq_some_iff.mp hdelivery
  split_ifs at hh with hrequest
  obtain ⟨nd, -, rfl⟩ := Option.map_eq_some_iff.mp hh
  have hh₀ := List.mem_of_getElem? hk
  have hcounted := hs.counted h₀ hh₀
  -- it has replicas to try, so it has owners
  simp only [WriteCall.request, decide_eq_true_eq] at hrequest
  obtain ⟨⟨-, r, hr, hrowner, -⟩, -⟩ := hrequest
  have howners : h₀.call.owners ≠ [] := by
    intro hnil
    rw [hcounted.remotes_eq_nil hnil] at hr
    cases hr
  have htarget := hcounted.sound.targets owner
    (List.mem_append_right _ (List.mem_map.mpr ⟨r, hr, hrowner⟩))
  rw [WriteCall.targets, if_neg howners] at htarget
  refine ⟨rfl, isReplica_replicaMetadata, rfl, h₀, hk, ?_, htarget, rfl⟩
  by_contra hreplica
  exact howners (hs.replica h₀ hh₀ (by simpa using hreplica))

theorem Forwarded.step {owner : GoString} (hf : s.Forwarded h k owner) (ev : FanOut.Event)
    (hbecomes : h.Becomes h') : (s.step env maxMemBytes ev).Forwarded h' k owner := by
  obtain ⟨h₀, hk, hreplica, howner, hentry⟩ := hf.sender
  obtain ⟨h₁, hk₁, hbecomes₁⟩ := becomes_step env maxMemBytes hk ev
  refine ⟨?_, hbecomes.self.trans hf.target, h₁, hk₁, ?_, ?_, ?_⟩
  · rw [hbecomes.md]
    exact hf.replica
  · rw [hbecomes₁.md]
    exact hreplica
  · rw [hbecomes₁.owners]
    exact howner
  · rw [hbecomes₁.entry, hentry, hbecomes.entry]

/-- **One event keeps all calls sound.** -/
theorem Sound.step (hs : s.Sound) (ev : FanOut.Event) :
    (s.step env maxMemBytes ev).Sound where
  counted := hs.counted_step ev
  replica := by
    intro h hh hmd
    rcases of_mem_step hh with ⟨h₀, hh₀, hbecomes⟩ | ⟨n, nd, -, md, e, rfl⟩ | ⟨k, owner, hnew⟩
    · rw [hbecomes.owners]
      exact hs.replica h₀ hh₀ (hbecomes.md ▸ hmd)
    · exact owners_start hmd
    · obtain ⟨h₀, -, hnew⟩ := Option.bind_eq_some_iff.mp hnew
      split_ifs at hnew
      obtain ⟨nd, -, rfl⟩ := Option.map_eq_some_iff.mp hnew
      exact owners_start hmd
  forwarded := by
    intro h hh k owner horigin
    rcases of_mem_step hh with ⟨h₀, hh₀, hbecomes⟩ | ⟨n, nd, -, md, e, rfl⟩ | ⟨j, x, hnew⟩
    · exact (hs.forwarded h₀ hh₀ k owner (hbecomes.origin ▸ horigin)).step ev hbecomes
    · cases horigin
    · obtain ⟨horigin', hf⟩ := hs.forwarded_delivery hnew
      rw [horigin', Option.some.injEq, Prod.mk.injEq] at horigin
      obtain ⟨rfl, rfl⟩ := horigin
      exact hf.step ev .rfl

theorem Sound.run (env : Env) (maxMemBytes : ℤ) (hs : s.Sound) (evs : List FanOut.Event) :
    (s.run env maxMemBytes evs).Sound := by
  induction evs generalizing s with
  | nil => exact hs
  | cons ev evs ih => exact ih (hs.step ev)

/-- **All calls of every run are sound.** -/
theorem sound_after (env : Env) (maxMemBytes : ℤ)
    (config : AList fun _ : GoString => List GoString) (evs : List FanOut.Event) :
    (after env maxMemBytes config evs).Sound :=
  Sound.run env maxMemBytes ⟨by simp, by simp, by simp⟩ evs

/-- **A client's write has owners.** -/
theorem owners_ne_nil_after (config : AList fun _ : GoString => List GoString)
    (evs : List FanOut.Event) (hh : h ∈ (after env maxMemBytes config evs).handlers)
    (hmd : isReplica h.md = false) : h.call.owners ≠ [] := by
  induction evs using List.reverseRecOn generalizing h with
  | nil => cases hh
  | append_singleton evs ev ih =>
    have hstep : after env maxMemBytes config (evs ++ [ev])
        = (after env maxMemBytes config evs).step env maxMemBytes ev := run_append ..
    rw [hstep] at hh
    rcases of_mem_step hh with ⟨h₀, hh₀, hbecomes⟩ | ⟨n, nd, hnd, md, e, rfl⟩ | ⟨k, owner, hnew⟩
    · rw [hbecomes.owners]
      exact ih hh₀ (hbecomes.md ▸ hmd)
    · obtain ⟨evs', hevs'⟩ := nodes_run env maxMemBytes config evs
      have hnd : nd ∈ (Cluster.after env maxMemBytes config evs').nodes n :=
        hevs' ▸ (Cluster.mem_running.mp hnd).1
      have hmd : isReplica md = false := hmd
      simp only [Handler.start, WriteCall.start, hmd, Bool.false_eq_true, if_false]
      exact (Cluster.placed_run config evs' hnd).owners_ne_nil _
    · obtain ⟨h₀, -, hnew⟩ := Option.bind_eq_some_iff.mp hnew
      split_ifs at hnew
      obtain ⟨nd, -, rfl⟩ := Option.map_eq_some_iff.mp hnew
      exact absurd (isReplica_replicaMetadata.symm.trans hmd) Bool.noConfusion

/-! ## How a call ends -/

/-- The event is one of a call's. -/
def Event.call? : FanOut.Event → Option ℕ
  | .look k _ | .deliver k _ | .respond k | .send k _ _ | .take k => some k
  | _ => none

/-- **A call acts on the node it runs at**, and on no other. -/
theorem nodes_step_of_ne (hk : s.handlers[k]? = some h) (hev : ev.call? = some k)
    (hne : n ≠ h.call.self) : (s.step env maxMemBytes ev).nodes n = s.nodes n := by
  rcases s.nodes_step env maxMemBytes ev with heq | ⟨cev, hcev, heq⟩ <;>
    rw [heq]
  cases ev with
  | member x mev => cases hev
  | restart x => cases hev
  | look j fate =>
    obtain rfl : j = k := Option.some.inj hev
    obtain rfl : Metastore.Event.writeLook j fate = cev := Option.some.inj hcev
    rcases s.cluster.nodes_step (.writeLook j fate) n with hsame | ⟨d, hdeed, -⟩
    · exact hsame
    · obtain ⟨w, hw, hself⟩ := Cluster.deed_writeLook hdeed
      obtain rfl : h.call = w := Option.some.inj ((writes_cluster hk).symm.trans hw)
      exact absurd hself.symm hne
  | _ => cases hcev

theorem step_take (env : Env) (maxMemBytes : ℤ) (hk : s.handlers[k]? = some h)
    (hup : (s.runner h).isSome) :
    (s.step env maxMemBytes (.take k)).handlers[k]? = some h.take ∧
      ((s.step env maxMemBytes (.take k)).runner h.take).isSome := by
  have hrunner : (s.step env maxMemBytes (.take k)).runner h.take = s.runner h := by
    have hbecomes := h.becomes_take
    unfold runner
    rw [hbecomes.self, hbecomes.boot]
    rfl
  refine ⟨?_, hrunner ▸ hup⟩
  obtain ⟨nd, hnd⟩ := Option.isSome_iff_exists.mp hup
  simp [step, stepHandlers, hk, hnd]

/-- **The loop over the results ends**: when all goroutines have sent, in
as many steps as there are results left. -/
theorem returns (hk : s.handlers[k]? = some h) (hup : (s.runner h).isSome)
    (hrest : h.call.rest = []) (hsent : h.call.remotes.length ≤ h.results.length) :
    ∃ h', (s.run env maxMemBytes
      (List.replicate (h.call.remotes.length - h.taken) (.take k))).handlers[k]? = some h' ∧
        h'.reply ≠ none := by
  induction hd : h.call.remotes.length - h.taken generalizing s h with
  | zero =>
    refine ⟨h, hk, ?_⟩
    have hdone : h.collecting = false :=
      (Handler.collecting_eq_false hrest).mpr (Or.inl (by omega))
    rw [Handler.reply_eq_some.mpr ⟨hrest, hdone, rfl⟩]
    exact Option.some_ne_none _
  | succ d ih =>
    obtain ⟨hk', hup'⟩ := step_take env maxMemBytes hk hup
    rw [List.replicate_succ]
    by_cases hreply : h.reply = none
    · -- it takes the next result
      have hlt : h.taken < h.results.length := by omega
      have hacks : h.call.acks < h.call.need := by
        by_contra hge
        have hdone := (Handler.collecting_eq_false hrest).mpr (Or.inr (not_lt.mp hge))
        rw [Handler.reply_eq_some.mpr ⟨hrest, hdone, rfl⟩] at hreply
        cases hreply
      have htake : h.take = { h with
          call := h.call.report h.results[h.taken].1 h.results[h.taken].2
          taken := h.taken + 1 } := by
        have hcollecting : h.collecting = true := by
          rw [Handler.collecting, decide_eq_true_eq]
          exact ⟨hrest, by omega, hacks⟩
        simp only [Handler.take, List.getElem?_eq_getElem hlt, hcollecting]
      have hlen : h.take.call.remotes.length = h.call.remotes.length := by
        rw [htake]
        exact List.length_map ..
      have htaken : h.take.taken = h.taken + 1 := by rw [htake]
      refine ih hk' hup' ?_ ?_ ?_
      · rw [htake]
        exact hrest
      · rw [hlen, htake]
        exact hsent
      · rw [hlen, htaken]
        omega
    · obtain ⟨h', hk₂, hbecomes⟩ := becomes_run env maxMemBytes hk
        (.take k :: List.replicate d (.take k))
      exact ⟨h', hk₂, (hbecomes.replied hreply).1 ▸ hreply⟩

/-- A call whose node has stopped takes no step. -/
theorem step_look_of_stopped (env : Env) (maxMemBytes : ℤ) (hk : s.handlers[k]? = some h)
    (hdown : s.runner h = none) (fate : Fate) :
    (s.step env maxMemBytes (.look k fate)).handlers[k]? = some h ∧
      (s.step env maxMemBytes (.look k fate)).runner h = none := by
  refine ⟨by simp [step, stepHandlers, hk, hdown], ?_⟩
  have hdown' : s.cluster.coordinator h.call.self h.call.boot = none := hdown
  have hnodes : (s.step env maxMemBytes (.look k fate)).nodes = s.nodes := by
    funext n
    simp [step, stepNodes, Event.deed?, Cluster.stepNodes, Cluster.deed, writes_cluster hk, hdown']
    rfl
  have hcluster : (s.step env maxMemBytes (.look k fate)).cluster.coordinator
      h.call.self h.call.boot = s.cluster.coordinator h.call.self h.call.boot := by
    unfold Cluster.coordinator Cluster.running cluster
    rw [hnodes]
  exact hcluster.trans hdown

/-- **The loop over the owners goes on to the next**, unless its node
stops. -/
theorem step_look (env : Env) (maxMemBytes : ℤ) (hk : s.handlers[k]? = some h)
    (hnd : s.runner h = some nd) (fate : Fate) :
    ∃ h', (s.step env maxMemBytes (.look k fate)).handlers[k]? = some h' ∧
      (h'.call.rest = h.call.rest.tail ∨
        (s.step env maxMemBytes (.look k fate)).runner h' = none) := by
  refine ⟨h.look env nd fate, by simp [step, stepHandlers, hk, hnd], ?_⟩
  rcases h.look_cases env nd fate with ⟨heq, hnil | ⟨hhead, d, hexit⟩⟩ | ⟨owner, rest, hrest, hstep⟩
  · refine Or.inl ?_
    rw [heq, hnil]
    rfl
  · -- its node has stopped
    refine Or.inr ?_
    rw [heq]
    obtain ⟨hnode, hup⟩ := Cluster.mem_running.mp (Cluster.running_of_coordinator hnd)
    have hstopped : (s.step env maxMemBytes (.look k fate)).nodes h.call.self
        = some (nd.step env maxMemBytes (.member (.serve (fate.action h.call.entry)))) :=
      (Cluster.nodes_deed (deed_look hk hnd hhead fate)).trans
        (by rw [Option.mem_def.mp hnode]; rfl)
    have hdown : (nd.step env maxMemBytes (.member (.serve (fate.action h.call.entry)))).up
        = false := by
      simp [Node.step, hup, Node.stops, hexit]
    unfold runner Cluster.coordinator Cluster.running
    simp [cluster, hstopped, hdown]
  · refine Or.inl ?_
    rw [hrest]
    rcases hstep with ⟨-, st, err, -, heq⟩ | ⟨-, tried, -, heq⟩ <;> rw [heq] <;> rfl

/-- **The loop over the owners ends**, unless its node stops: in as many
steps as there are owners left. -/
theorem loop_ends (hk : s.handlers[k]? = some h) (fates : List Fate)
    (hlen : fates.length = h.call.rest.length) :
    ∃ h', (s.run env maxMemBytes (fates.map (.look k))).handlers[k]? = some h' ∧
      (h'.call.rest = [] ∨ (s.run env maxMemBytes (fates.map (.look k))).runner h' = none) := by
  have hstays : ∀ (fates : List Fate) (s : FanOut) (h : Handler), s.handlers[k]? = some h →
      s.runner h = none → (s.run env maxMemBytes (fates.map (.look k))).handlers[k]? = some h ∧
        (s.run env maxMemBytes (fates.map (.look k))).runner h = none := by
    intro fates
    induction fates with
    | nil => exact fun _ _ hk hdown => ⟨hk, hdown⟩
    | cons fate fates ih =>
      intro s h hk hdown
      obtain ⟨hk', hdown'⟩ := step_look_of_stopped env maxMemBytes hk hdown fate
      exact ih _ h hk' hdown'
  induction fates generalizing s h with
  | nil => exact ⟨h, hk, Or.inl (List.length_eq_zero_iff.mp hlen.symm)⟩
  | cons fate fates ih =>
    rcases hnd : s.runner h with _ | nd
    · obtain ⟨hk', hdown⟩ := hstays (fate :: fates) s h hk hnd
      exact ⟨h, hk', Or.inr hdown⟩
    · obtain ⟨h₁, hk₁, hrest | hdown⟩ := step_look env maxMemBytes hk hnd fate
      · exact ih hk₁ (by rw [hrest, List.length_tail, ← hlen]; rfl)
      · obtain ⟨hk₂, hdown₂⟩ := hstays fates _ h₁ hk₁ hdown
        exact ⟨h₁, hk₂, Or.inr hdown₂⟩

end FanOut

end Metastore

end TftAnalytics

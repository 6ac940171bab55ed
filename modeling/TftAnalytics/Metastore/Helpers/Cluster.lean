import TftAnalytics.Metastore.Model.Cluster
import TftAnalytics.Peers.Helpers.Moves
/-!
# Metastore — what an event does to the nodes of a cluster

Helper layer. An event does at most one deed at one node: every other
node keeps its tree, and no node forgets an entry it has applied.
-/

namespace TftAnalytics

namespace Metastore

open Hasher Peers

variable {env : Env} {maxMemBytes : ℤ} {c : Cluster} {ev : Event} {n : GoString} {nd : Node}

/-! ## Histories -/

/-- A history forgets nothing it has acknowledged. -/
theorem mem_acked_step {h : History} {e : StatEntry} (he : e ∈ h.acked) (a : Action) :
    e ∈ (h.step env maxMemBytes a).acked := by
  unfold History.step
  split
  · exact List.mem_append_right _ he
  · exact he

/-- A write that returns `nil` is acknowledged. -/
theorem mem_acked_write {h : History} {e : StatEntry} {fate : Fate} {s : Store}
    (hexit : ((fate.action e).exit env h.store).1 = .returned s false) :
    e ∈ (h.step env maxMemBytes (fate.action e)).acked := by
  unfold History.step
  cases hx : (fate.action e).exit env h.store with
  | mk x cut =>
    rw [hx] at hexit
    simp only at hexit
    subst hexit
    cases fate with
    | done io => simp [Fate.action, Action.ack]
    | torn cut =>
      rw [Fate.action, Action.exit] at hx
      split at hx <;> cases hx

/-! ## Nodes -/

theorem Cluster.mem_running : nd ∈ c.running n ↔ nd ∈ c.nodes n ∧ nd.up = true := by
  simp [Cluster.running, Option.filter_eq_some_iff]

theorem Cluster.running_of_coordinator {boot : ℕ} (h : nd ∈ c.coordinator n boot) :
    nd ∈ c.running n := (Option.filter_eq_some_iff.mp h).1

/-- **What becomes of a node**: nothing, or the deed of the event. -/
theorem Cluster.nodes_step (c : Cluster) (ev : Event) (n : GoString) :
    (c.step env maxMemBytes ev).nodes n = c.nodes n ∨
      ∃ d, c.deed ev = some (n, d) ∧
        (c.step env maxMemBytes ev).nodes n
          = (c.nodes n).map fun nd => nd.step env maxMemBytes d := by
  simp only [Cluster.step, Cluster.stepNodes]
  cases hd : c.deed ev with
  | none => exact Or.inl rfl
  | some x =>
    simp only
    split_ifs with hx
    · exact Or.inr ⟨x.2, by rw [hx], rfl⟩
    · exact Or.inl rfl

/-- The deed at a node is done there. -/
theorem Cluster.nodes_deed {d : Node.Deed} (hdeed : c.deed ev = some (n, d)) :
    (c.step env maxMemBytes ev).nodes n = (c.nodes n).map fun nd => nd.step env maxMemBytes d := by
  simp only [Cluster.step, Cluster.stepNodes]
  rw [hdeed]
  exact if_pos rfl

/-- **What becomes of a node's tree**: nothing, or the action of the deed. -/
theorem Node.lsm_step (nd : Node) (d : Node.Deed) :
    (nd.step env maxMemBytes d).lsm = nd.lsm ∨
      ∃ a, d = .member (.serve a) ∧ nd.up = true ∧
        (nd.step env maxMemBytes d).lsm = nd.lsm.step env maxMemBytes a := by
  cases d with
  | restart =>
    refine Or.inl ?_
    unfold Node.step
    split_ifs <;> rfl
  | member ev =>
    unfold Node.step
    split_ifs with hup
    · have hhost := (Member.moves_step (serverHost env maxMemBytes) nd.member ev).host_cases
      rcases hhost with heq | ⟨addr, heq⟩ | ⟨a, rfl, heq⟩
      · exact Or.inl (congrArg Server.lsm heq)
      · exact Or.inl ((congrArg Server.lsm heq).trans rfl)
      · exact Or.inr ⟨a, rfl, hup, congrArg Server.lsm heq⟩
    · exact Or.inl rfl

/-- **A node's tree behind an event.** -/
theorem Cluster.lsm_step {h : History} (hh : h ∈ c.lsm n) (ev : Event) :
    (c.step env maxMemBytes ev).lsm n = some h ∨
      ∃ a, c.deed ev = some (n, .member (.serve a)) ∧ (∃ nd ∈ c.running n, nd.lsm = h) ∧
        (c.step env maxMemBytes ev).lsm n = some (h.step env maxMemBytes a) := by
  obtain ⟨nd, hnd, rfl⟩ := Option.map_eq_some_iff.mp hh
  rcases c.nodes_step ev n with heq | ⟨d, hdeed, heq⟩
  · refine Or.inl ?_
    rw [Cluster.lsm, heq, hnd]
    rfl
  · have hlsm : (c.step env maxMemBytes ev).lsm n = some (nd.step env maxMemBytes d).lsm := by
      rw [Cluster.lsm, heq, hnd]
      rfl
    rw [hlsm]
    rcases nd.lsm_step d with heq | ⟨a, rfl, hup, heq⟩
    · exact Or.inl (by rw [heq])
    · exact Or.inr ⟨a, hdeed, ⟨nd, Cluster.mem_running.mpr ⟨hnd, hup⟩, rfl⟩, by rw [heq]⟩

/-- The action at a node that is up is done there. -/
theorem Cluster.lsm_deed {a : Action} (hnd : nd ∈ c.running n)
    (hdeed : c.deed ev = some (n, .member (.serve a))) :
    (c.step env maxMemBytes ev).lsm n = some (nd.lsm.step env maxMemBytes a) := by
  obtain ⟨hnd, hup⟩ := Cluster.mem_running.mp hnd
  rw [Cluster.lsm, Cluster.nodes_deed hdeed, Option.mem_def.mp hnd, Option.map_some,
    Option.map_some, Node.step, if_pos hup]
  rfl

/-- **No tree forgets what it has applied.** -/
theorem Cluster.Applied.step {e : StatEntry} (h : c.Applied n e) (ev : Event) :
    (c.step env maxMemBytes ev).Applied n e := by
  obtain ⟨h, hh, he⟩ := h
  rcases Cluster.lsm_step hh ev with heq | ⟨a, -, -, heq⟩
  · exact ⟨h, heq, he⟩
  · exact ⟨_, heq, mem_acked_step he a⟩

/-- What a tree has applied it had applied before, or the event's deed is
there. -/
theorem Cluster.Applied.of_step {e : StatEntry}
    (h : (c.step env maxMemBytes ev).Applied n e) :
    c.Applied n e ∨ ∃ d, c.deed ev = some (n, d) := by
  obtain ⟨h, hh, he⟩ := h
  rcases c.nodes_step ev n with heq | ⟨d, hdeed, -⟩
  · rw [Cluster.lsm, heq] at hh
    exact Or.inl ⟨h, hh, he⟩
  · exact Or.inr ⟨d, hdeed⟩

/-- The loop of `Write` writes nowhere but at its coordinator. -/
theorem Cluster.deed_writeLook {k : ℕ} {fate : Fate} {d : Node.Deed}
    (h : c.deed (.writeLook k fate) = some (n, d)) : ∃ w, c.writes[k]? = some w ∧ w.self = n := by
  obtain ⟨w, hw, h⟩ := Option.bind_eq_some_iff.mp h
  obtain ⟨nd, -, h⟩ := Option.bind_eq_some_iff.mp h
  obtain ⟨x, hx, h⟩ := Option.map_eq_some_iff.mp h
  rw [Prod.mk.injEq] at h
  obtain ⟨rfl, -⟩ := h
  have hself : x = w.self := by simpa using (Option.filter_eq_some_iff.mp hx).2
  exact ⟨w, hw, hself.symm⟩

/-- **A write that returns `nil` at a node has applied its entry there.** -/
theorem Cluster.applied_of_returned {e : StatEntry} {fate : Fate} {s : Store}
    (hnd : nd ∈ c.running n)
    (hdeed : c.deed ev = some (n, .member (.serve (fate.action e))))
    (hexit : ((fate.action e).exit env nd.lsm.store).1 = .returned s false) :
    (c.step env maxMemBytes ev).Applied n e :=
  ⟨_, Cluster.lsm_deed hnd hdeed, mem_acked_write hexit⟩

end Metastore

end TftAnalytics

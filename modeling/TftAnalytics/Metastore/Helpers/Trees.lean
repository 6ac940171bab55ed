import TftAnalytics.Metastore.Helpers.Cluster
import TftAnalytics.Metastore.Helpers.History
/-!
# Metastore — the trees of a cluster

Helper layer. In a run in which no stop of a node finds a record behind a
torn one and the clocks written are sound, no tree of a cluster ever loses
rank for a key, and each answers with an entry of the rank it holds.
-/

namespace TftAnalytics

namespace Metastore

open Hasher Peers

variable {env : Env} {maxMemBytes : ℤ} {c : Cluster} {ev : Event} {n : GoString} {nd : Node}

/-! ## Trees of a cluster -/

/-- The action a deed has a node's tree do. -/
def Node.Deed.action? : Node.Deed → Option Action
  | .member (.serve a) => some a
  | _ => none

/-- The action an event has a tree do, and at which node. -/
def Cluster.action? (c : Cluster) (ev : Event) : Option (GoString × Action) :=
  (c.deed ev).bind fun x => x.2.action?.map fun a => (x.1, a)

/-- The event writes an entry with a sound clock, if any, and does not stop
a node while a record lies behind a torn one in its log. -/
def Cluster.Spares (env : Env) (c : Cluster) (ev : Event) : Prop :=
  ∀ x ∈ c.action? ev, (∀ e ∈ x.2.given, Clocked e) ∧
    ∀ nd ∈ c.running x.1, nd.lsm.Spares env x.2

instance (env : Env) (c : Cluster) (ev : Event) : Decidable (c.Spares env ev) :=
  inferInstanceAs (Decidable (∀ x ∈ c.action? ev, _))

/-- **No stop of a node finds a record behind a torn one**, from `c` on. -/
def Cluster.Unburied (env : Env) (maxMemBytes : ℤ) : Cluster → List Event → Prop
  | _, [] => True
  | c, ev :: evs => c.Spares env ev ∧ (c.step env maxMemBytes ev).Unburied env maxMemBytes evs

instance decidableClusterUnburied (env : Env) (maxMemBytes : ℤ) :
    ∀ (c : Cluster) (evs : List Event), Decidable (c.Unburied env maxMemBytes evs)
  | _, [] => isTrue trivial
  | c, ev :: evs =>
    have := decidableClusterUnburied env maxMemBytes (c.step env maxMemBytes ev) evs
    inferInstanceAs (Decidable (_ ∧ _))

theorem Cluster.Unburied.append {evs evs' : List Event} :
    c.Unburied env maxMemBytes (evs ++ evs') ↔ c.Unburied env maxMemBytes evs ∧
      (c.run env maxMemBytes evs).Unburied env maxMemBytes evs' := by
  induction evs generalizing c with
  | nil => simp [Cluster.Unburied, Cluster.run]
  | cons ev evs ih =>
    rw [List.cons_append, Cluster.Unburied, Cluster.Unburied, ih, and_assoc]
    rfl

/-- What holds of the trees of a cluster along such a run. -/
def Cluster.Good (env : Env) (c : Cluster) : Prop :=
  ∀ n, ∀ h ∈ c.lsm n, h.Good (clockRanking fun _ => True) env ∧ ∀ e ∈ h.acked, Clocked e

/-- The largest rank a node's tree holds for a key. -/
def Cluster.top (env : Env) (c : Cluster) (n : GoString) (key : GoString) :
    WithBot (ℤ ×ₗ ℤ) :=
  (c.lsm n).elim ⊥ fun h => h.store.tree.top (clockRanking fun _ => True) env.codec key

theorem Cluster.good_init (config : AList fun _ : GoString => List GoString) :
    (Cluster.init env maxMemBytes config).Good env := by
  intro n h hh
  obtain ⟨nd, hnd, rfl⟩ := Option.map_eq_some_iff.mp hh
  obtain ⟨peersEnv, -, rfl⟩ := Option.map_eq_some_iff.mp hnd
  exact ⟨Metastore.good_init, by simp [Node.lsm, Node.boot, Member.start, newServer, History.init]⟩

/-- What an action acknowledges it was given. -/
theorem mem_acked_step_iff {h : History} {a : Action} {e : StatEntry}
    (he : e ∈ (h.step env maxMemBytes a).acked) : e ∈ h.acked ∨ e ∈ a.given := by
  unfold History.step at he
  split at he
  · rcases List.mem_append.mp he with hack | hold
    · cases a with
      | write e' io =>
        simp only [Action.ack] at hack
        split_ifs at hack
        · cases hack
        · exact Or.inr (by simpa [Action.given] using (List.mem_singleton.mp hack).symm)
      | _ => cases hack
    · exact Or.inl hold
  · exact Or.inl he

/-- **One event keeps the trees good, and no rank falls.** -/
theorem Cluster.Good.step (hgood : c.Good env) (maxMemBytes : ℤ) (hspares : c.Spares env ev) :
    (c.step env maxMemBytes ev).Good env ∧
      ∀ n key, c.top env n key ≤ (c.step env maxMemBytes ev).top env n key := by
  -- a node's tree is left alone, or does one action
  have htree : ∀ n, ∀ h ∈ c.lsm n, ∃ h', (c.step env maxMemBytes ev).lsm n = some h' ∧
      (h'.Good (clockRanking fun _ => True) env ∧ ∀ e ∈ h'.acked, Clocked e) ∧
      ∀ key, h.store.tree.top (clockRanking fun _ => True) env.codec key
        ≤ h'.store.tree.top (clockRanking fun _ => True) env.codec key := by
    intro n h hh
    obtain ⟨hg, hclocked⟩ := hgood n h hh
    rcases Cluster.lsm_step hh ev with heq | ⟨a, hdeed, ⟨nd, hnd, rfl⟩, heq⟩
    · exact ⟨h, heq, ⟨hg, hclocked⟩, fun _ => le_rfl⟩
    · have hact : (n, a) ∈ c.action? ev := by
        rw [Cluster.action?, hdeed]
        rfl
      obtain ⟨ha, hspares⟩ := hspares (n, a) hact
      obtain ⟨hg', hmono⟩ := hg.step maxMemBytes (fun e he => ⟨trivial, ha e he⟩)
        (hspares nd hnd)
      refine ⟨_, heq, ⟨hg', fun e he => ?_⟩, hmono⟩
      exact (mem_acked_step_iff he).elim (hclocked e) (ha e)
  constructor
  · intro n h' hh'
    -- no step makes a node
    have hsome : (c.lsm n).isSome := by
      rcases c.nodes_step ev n with heq | ⟨d, -, heq⟩
      · rw [Cluster.lsm, ← heq, ← Cluster.lsm, Option.mem_def.mp hh']
        rfl
      · have hnodes : ((c.step env maxMemBytes ev).nodes n).isSome := by
          rw [← Option.isSome_map (f := Node.lsm), ← Cluster.lsm, Option.mem_def.mp hh']
          rfl
        rw [heq, Option.isSome_map] at hnodes
        rwa [Cluster.lsm, Option.isSome_map]
    obtain ⟨h, hh⟩ := Option.isSome_iff_exists.mp hsome
    obtain ⟨h'', heq, hgood', -⟩ := htree n h hh
    obtain rfl := Option.mem_unique heq hh'
    exact hgood'
  · intro n key
    rw [Cluster.top]
    cases hh : c.lsm n with
    | none => exact bot_le
    | some h =>
      obtain ⟨h', heq, -, hmono⟩ := htree n h hh
      rw [Cluster.top, heq]
      exact hmono key

theorem Cluster.Good.run (hgood : c.Good env) {evs : List Event}
    (hunburied : c.Unburied env maxMemBytes evs) :
    (c.run env maxMemBytes evs).Good env ∧
      ∀ n key, c.top env n key ≤ (c.run env maxMemBytes evs).top env n key := by
  induction evs generalizing c with
  | nil => exact ⟨hgood, fun _ _ => le_rfl⟩
  | cons ev evs ih =>
    obtain ⟨hgood', hmono⟩ := hgood.step maxMemBytes hunburied.1
    obtain ⟨hrun, hmono'⟩ := ih hgood' hunburied.2
    exact ⟨hrun, fun n key => (hmono n key).trans (hmono' n key)⟩

/-- An entry that is applied is in the tree, by rank. -/
theorem Cluster.Good.le_top (hgood : c.Good env) {e : StatEntry} (h : c.Applied n e) :
    Clocked e ∧ ↑(clockRank e) ≤ c.top env n (entryKey e) := by
  obtain ⟨hist, hhist, he⟩ := h
  obtain ⟨hg, hclocked⟩ := hgood n hist hhist
  refine ⟨hclocked e he, ?_⟩
  rw [Cluster.top, Option.mem_def.mp hhist]
  exact hg.acked e he

/-- What a node's tree answers has the largest rank it holds. -/
theorem Cluster.Good.find (hgood : c.Good env) (hnd : nd ∈ c.running n) (key : GoString) :
    (∀ b ∈ nd.lsm.read env key, b ∈ Storable (clockRanking fun _ => True) env.codec key) ∧
      optRank clockRank (nd.lsm.read env key) = c.top env n key := by
  have hlsm : c.lsm n = some nd.lsm := by
    rw [Cluster.lsm, Option.mem_def.mp (Cluster.mem_running.mp hnd).1]
    rfl
  obtain ⟨hg, -⟩ := hgood n nd.lsm hlsm
  rw [Cluster.top, hlsm]
  exact hg.read key

end Metastore

end TftAnalytics

import TftAnalytics.Broker.Helpers.Partition
import TftAnalytics.Broker.Model.Replication
/-!
# Broker — what a replica's log holds

The log of a replica is the payloads whose replications have arrived, in
the order of arrival. Each publish is in it once at most. Where the
arrivals are the first publishes in the order of publication, the replica
agrees with the source on every offset that both retain; a replication
that is lost, or overtakes another, moves the offsets apart.
-/

namespace TftAnalytics

namespace Broker

namespace Replication

/-- The publishes a replica has or may still get. -/
def taken (σ : Replication) (r : GoString) : List ℕ :=
  σ.arrived r ++ (σ.inFlight.filter fun t => t.target = r).map (·.publish)

variable {place : Placement} {σ : Replication}

/-- Of the goroutines of one publish a replica gets one at most. -/
theorem publishes_of_target (replicas : List GoString) (hnodup : replicas.Nodup) (x : Bytes)
    (n : ℕ) (r : GoString) :
    ((replicas.map fun target => (⟨target, x, n⟩ : Task)).filter fun t => t.target = r).map
        (·.publish)
      = if r ∈ replicas then [n] else [] := by
  induction replicas with
  | nil => rfl
  | cons a replicas ih =>
    obtain ⟨hnotin, hnodup⟩ := List.nodup_cons.mp hnodup
    have ih := ih hnodup
    rw [List.map_cons, List.filter_cons]
    by_cases ha : a = r
    · subst ha
      rw [if_neg hnotin] at ih
      simp [ih]
    · simp only [ha, decide_false, Bool.false_eq_true, if_false, List.mem_cons, Ne.symm ha,
        false_or]
      exact ih

/-- A goroutine that ends takes its publish out of those coming. -/
theorem erase_publishes {tasks : List Task} {t : Task} (ht : t ∈ tasks) (r : GoString) :
    ((tasks.filter fun u => u.target = r).map (·.publish)).Perm
      ((if t.target = r then [t.publish] else [])
        ++ ((tasks.erase t).filter fun u => u.target = r).map (·.publish)) := by
  have hperm := ((List.perm_cons_erase ht).filter fun u => u.target = r).map (·.publish)
  rw [List.filter_cons] at hperm
  by_cases hr : t.target = r
  · simpa [hr] using hperm
  · simpa [hr] using hperm

/-- With a publish, each replica has one more coming. -/
theorem taken_publish (place : Placement) (σ : Replication) (x : Bytes) (r : GoString) :
    (σ.step place (.publish x)).taken r
      = σ.taken r ++ if r ∈ place.replicas then [σ.published.length] else [] := by
  show σ.arrived r ++ List.map _ (List.filter _ (σ.inFlight ++ _)) = _
  rw [List.filter_append, List.map_append,
    publishes_of_target place.replicas place.nodup x σ.published.length r, ← List.append_assoc]
  rfl

/-- What arrives was coming. -/
theorem taken_arrive {t : Task} (ht : t ∈ σ.inFlight) (r : GoString) :
    (σ.taken r).Perm ((σ.step place (.arrive t)).taken r) := by
  show (σ.taken r).Perm (taken (if t ∈ σ.inFlight then _ else σ) r)
  rw [if_pos ht]
  have hperm := erase_publishes ht r
  unfold taken
  by_cases hr : r = t.target
  · subst hr
    rw [if_pos rfl] at hperm
    simp only [Function.update_self, List.append_assoc]
    exact hperm.append_left _
  · rw [if_neg (Ne.symm hr), List.nil_append] at hperm
    simp only [Function.update_of_ne hr]
    exact hperm.append_left _

/-- **What holds along a run.** -/
structure Good (σ : Replication) : Prop where
  source : ∃ base, Represents σ.source σ.published base []
  replica : ∀ r, ∃ hist base, Represents (σ.replica r) hist base [] ∧
    (σ.arrived r).map (fun i => σ.published[i]?) = hist.map some
  taken_nodup : ∀ r, (σ.taken r).Nodup
  arrived_lt : ∀ r, ∀ i ∈ σ.arrived r, i < σ.published.length
  task : ∀ t ∈ σ.inFlight, σ.published[t.publish]? = some t.payload
  fits : ∀ x ∈ σ.published, Fits x

theorem good_init (place : Placement) : (init place).Good where
  source := ⟨0, Represents.openPartition_empty _⟩
  replica := fun _ => ⟨[], 0, Represents.openPartition_empty _, rfl⟩
  taken_nodup := fun _ => List.nodup_nil
  arrived_lt := fun _ _ h => absurd h List.not_mem_nil
  task := fun _ h => absurd h List.not_mem_nil
  fits := fun _ h => absurd h List.not_mem_nil

theorem Good.task_lt (h : σ.Good) {t : Task} (ht : t ∈ σ.inFlight) :
    t.publish < σ.published.length := by
  obtain ⟨hlt, -⟩ := List.getElem?_eq_some_iff.mp (h.task t ht)
  exact hlt

theorem Good.taken_lt (h : σ.Good) {r : GoString} {i : ℕ} (hi : i ∈ σ.taken r) :
    i < σ.published.length := by
  rcases List.mem_append.mp hi with hi | hi
  · exact h.arrived_lt r i hi
  · obtain ⟨t, ht, rfl⟩ := List.mem_map.mp hi
    exact h.task_lt (List.mem_of_mem_filter ht)

/-- **A publish**: the source log grows, and each replica has one more
publish coming. -/
theorem Good.publish (h : σ.Good) {x : Bytes} (hx : Fits x) :
    (σ.step place (.publish x)).Good := by
  obtain ⟨base, hsource⟩ := h.source
  obtain ⟨-, base', -, hsource', -⟩ := hsource.append hx
  have hget : ∀ i, i < σ.published.length → (σ.published ++ [x])[i]? = σ.published[i]? :=
    fun i hi => List.getElem?_append_left hi
  exact
    { source := ⟨base', hsource'⟩
      replica := by
        intro r
        obtain ⟨hist, base, hrep, hmap⟩ := h.replica r
        refine ⟨hist, base, hrep, ?_⟩
        rw [← hmap]
        exact List.map_congr_left fun i hi => hget i (h.arrived_lt r i hi)
      taken_nodup := by
        intro r
        rw [taken_publish]
        refine List.nodup_append.mpr ⟨h.taken_nodup r, ?_, ?_⟩
        · split_ifs <;> simp
        · -- the number of the publish is new
          intro a ha b hb
          have hlt := h.taken_lt ha
          split_ifs at hb
          · obtain rfl := List.mem_singleton.mp hb
            omega
          · cases hb
      arrived_lt := by
        intro r i hi
        have hlt := h.arrived_lt r i hi
        show i < (σ.published ++ [x]).length
        rw [List.length_append]
        omega
      task := by
        intro t ht
        show (σ.published ++ [x])[t.publish]? = _
        rcases List.mem_append.mp ht with ht | ht
        · rw [hget _ (h.task_lt ht)]
          exact h.task t ht
        · obtain ⟨target, -, rfl⟩ := List.mem_map.mp ht
          simp
      fits := by
        intro y hy
        rcases List.mem_append.mp hy with hy | hy
        · exact h.fits y hy
        · obtain rfl := List.mem_singleton.mp hy
          exact hx }

/-- **A replication that arrives** goes to the end of the replica's log. -/
theorem Good.arrive (h : σ.Good) (t : Task) : (σ.step place (.arrive t)).Good := by
  -- a task in flight is appended to the log of its target, one that is not does nothing
  by_cases ht : t ∈ σ.inFlight
  · have htaken : ∀ r, (σ.taken r).Perm ((σ.step place (.arrive t)).taken r) := taken_arrive ht
    have hstep : σ.step place (.arrive t) = _ := if_pos ht
    rw [hstep] at htaken ⊢
    obtain ⟨hist, base, hrep, hmap⟩ := h.replica t.target
    obtain ⟨hlt, hget⟩ := List.getElem?_eq_some_iff.mp (h.task t ht)
    have hx : Fits t.payload := h.fits _ (hget ▸ List.getElem_mem hlt)
    obtain ⟨-, base', -, hrep', -⟩ := hrep.append hx
    exact
      { source := h.source
        replica := by
          intro r
          by_cases hr : r = t.target
          · subst hr
            refine ⟨hist ++ [t.payload], base', ?_, ?_⟩
            · simpa using hrep'
            · simp [hmap, h.task t ht]
          · simpa [hr] using h.replica r
        taken_nodup := fun r => (htaken r).nodup_iff.mp (h.taken_nodup r)
        arrived_lt := fun r i hi => h.taken_lt ((htaken r).mem_iff.mpr (List.mem_append_left _ hi))
        task := fun u hu => h.task u (List.mem_of_mem_erase hu)
        fits := h.fits }
  · have hstep : σ.step place (.arrive t) = σ := if_neg ht
    rw [hstep]
    exact h

/-- **A replication that is lost** changes no log. -/
theorem Good.lose (h : σ.Good) (t : Task) : (σ.step place (.lose t)).Good where
  source := h.source
  replica := h.replica
  taken_nodup := by
    intro r
    refine (h.taken_nodup r).sublist ?_
    exact (List.Sublist.refl _).append ((List.erase_sublist.filter _).map _)
  arrived_lt := h.arrived_lt
  task := fun u hu => h.task u (List.mem_of_mem_erase hu)
  fits := h.fits

/-- **A whole run.** -/
theorem good_run (place : Placement) (evs : List ReplicationEvent)
    (hfits : ∀ x ∈ publishedBy evs, Fits x) :
    (run place evs).Good ∧ (run place evs).published = publishedBy evs := by
  -- the induction needs any state to start from
  suffices h : ∀ (evs : List ReplicationEvent) (σ : Replication), σ.Good →
      (∀ x ∈ publishedBy evs, Fits x) → (evs.foldl (step place) σ).Good ∧
        (evs.foldl (step place) σ).published = σ.published ++ publishedBy evs from
    h evs _ (good_init place) hfits
  intro evs
  induction evs with
  | nil => exact fun σ hσ _ => ⟨hσ, (List.append_nil _).symm⟩
  | cons ev evs ih =>
    intro σ hσ hfits
    cases ev with
    | publish x =>
      obtain ⟨hx, hfits⟩ := List.forall_mem_cons.mp hfits
      obtain ⟨hgood, hpub⟩ := ih _ (hσ.publish hx) hfits
      refine ⟨hgood, hpub.trans ?_⟩
      show σ.published ++ [x] ++ publishedBy evs = σ.published ++ x :: publishedBy evs
      rw [List.append_assoc, List.singleton_append]
    | arrive t =>
      obtain ⟨hgood, hpub⟩ := ih _ (hσ.arrive t) hfits
      refine ⟨hgood, hpub.trans ?_⟩
      have hsame : (σ.step place (.arrive t)).published = σ.published := by
        show (if t ∈ σ.inFlight then _ else σ).published = σ.published
        split_ifs <;> rfl
      rw [hsame]
      rfl
    | lose t => exact ih _ (hσ.lose t) hfits

end Replication

/-- **What a replica's log holds**, for every interleaving of publishes,
replications and losses: the payloads of distinct publishes, in the order
in which they arrived. So where the first publishes have arrived in their
order, and no others, what source and replica both retain at an offset is
one payload. -/
theorem replica_log (place : Placement) (evs : List ReplicationEvent)
    (hfits : ∀ x ∈ publishedBy evs, Fits x) :
    let σ := Replication.run place evs
    (∀ o x, σ.source.readAt o = some x → (publishedBy evs)[o.toNat]? = some x) ∧
      ∀ r, (σ.arrived r).Nodup ∧
        (∀ o x, (σ.replica r).readAt o = some x →
          ∃ i, (σ.arrived r)[o.toNat]? = some i ∧ (publishedBy evs)[i]? = some x) ∧
        (∀ n, σ.arrived r = List.range n → ∀ o x y, σ.source.readAt o = some x →
          (σ.replica r).readAt o = some y → x = y) := by
  obtain ⟨hgood, hpub⟩ := Replication.good_run place evs hfits
  have hsource : ∀ o x, (Replication.run place evs).source.readAt o = some x →
      (publishedBy evs)[o.toNat]? = some x := by
    intro o x hx
    obtain ⟨base, hrep⟩ := hgood.source
    rw [hrep.readAt, hpub] at hx
    split_ifs at hx
    exact hx
  have hreplica : ∀ r o x, ((Replication.run place evs).replica r).readAt o = some x →
      ∃ i, ((Replication.run place evs).arrived r)[o.toNat]? = some i ∧
        (publishedBy evs)[i]? = some x := by
    intro r o x hx
    obtain ⟨hist, base, hrep, hmap⟩ := hgood.replica r
    rw [hrep.readAt] at hx
    split_ifs at hx
    have hat := congrArg (fun l => l[o.toNat]?) hmap
    simp only [List.getElem?_map, hx, Option.map_some] at hat
    obtain ⟨i, hi, hpay⟩ := Option.map_eq_some_iff.mp hat
    exact ⟨i, hi, hpub ▸ hpay⟩
  refine ⟨hsource, fun r => ⟨(hgood.taken_nodup r).sublist (List.sublist_append_left _ _),
    hreplica r, ?_⟩⟩
  intro n hn o x y hx hy
  -- arrived in order, the task at an offset is the publish of that number
  obtain ⟨i, hi, hpay⟩ := hreplica r o y hy
  rw [hn] at hi
  obtain ⟨hlt, hio⟩ := List.getElem?_eq_some_iff.mp hi
  rw [List.getElem_range] at hio
  have := hsource o x hx
  rw [hio, hpay, Option.some.injEq] at this
  exact this.symm

/-- One replica, and no retention. -/
def onePlacement : Placement := ⟨[[98]], by decide, 0, fun _ => 0⟩

/-- Two publishes, the second not replicated yet. -/
theorem replica_log_sample :
    let σ := Replication.run onePlacement
      [.publish [1], .publish [2], .arrive ⟨[98], [1], 0⟩]
    ∀ o x y, σ.source.readAt o = some x → (σ.replica [98]).readAt o = some y → x = y :=
  ((replica_log onePlacement [.publish [1], .publish [2], .arrive ⟨[98], [1], 0⟩]
    (by decide)).2 [98]).2.2 1 (by decide)

/-- **Replica and source need not agree**: the second of two publishes
arrives first. -/
theorem not_replica_agrees : ¬ ∀ (place : Placement) (evs : List ReplicationEvent),
    ∀ r ∈ place.replicas, ∀ o x y, (Replication.run place evs).source.readAt o = some x →
      ((Replication.run place evs).replica r).readAt o = some y → x = y := by
  intro h
  have hswapped := h onePlacement
    [.publish [1], .publish [2], .arrive ⟨[98], [2], 1⟩, .arrive ⟨[98], [1], 0⟩] [98] (by decide)
    0 [1] [2] (by decide) (by decide)
  exact absurd hswapped (by decide)

end Broker

end TftAnalytics

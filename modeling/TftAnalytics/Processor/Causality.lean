import TftAnalytics.Processor.Helpers.Reorder
/-!
# Processor — causal order out of the reorder buffer

An event is ready when each component of its clock is at most one above
the watermark. That is so for the sender's own component of the next
event, but for the components of other nodes it lets an event go while
the last event that it depends on is still missing. Where such an event
arrives late, it comes out after what depends on it.
-/

namespace TftAnalytics

namespace Processor

variable {ε : Type} [HasClock ε] {u : Usage ε} {calls : List (Call ε)}

/-- **What holds of a buffer in use.** -/
structure Usage.Good (calls : List (Call ε)) (u : Usage ε) : Prop where
  numbers : u.pushed.map (·.number) = List.range u.pushed.length
  events : u.pushed.map (·.event) = pushes calls
  perm : (u.delivered ++ u.buffer.events).Perm u.pushed
  seen : u.settled ⊆ u.pushed
  watermark : ∀ node, 0 ≤ u.buffer.delivered node
  below : ∀ e ∈ u.delivered, ∀ node, seqOf e node ≤ u.buffer.delivered node
  /-- Of what the last pop saw, what is ready came out. -/
  complete : ∀ e ∈ u.settled, isReady u.buffer.delivered e = true → e ∈ u.delivered
  /-- Nothing else did, unless it was forced. -/
  sound : u.buffer.forced = 0 →
    (∀ e ∈ u.delivered, Releasable (u.settled.map (·.event)) e.event) ∧
      ∀ node, 0 < u.buffer.delivered node →
        ∃ e, Releasable (u.settled.map (·.event)) e ∧ u.buffer.delivered node = seqOf e node
  settled : u.delivered ≠ [] → ∃ before now mid,
    calls = before ++ .popReady now :: mid ∧ u.settled.map (·.event) = pushes before

theorem good_init (timeout : ℚ) : (Usage.init timeout : Usage ε).Good [] where
  numbers := rfl
  events := rfl
  perm := List.Perm.refl []
  seen := List.Subset.refl []
  watermark := fun _ => le_rfl
  below := fun _ h => absurd h List.not_mem_nil
  complete := fun _ h => absurd h List.not_mem_nil
  sound := fun _ => ⟨fun _ h => absurd h List.not_mem_nil, fun _ h => absurd h (lt_irrefl _)⟩
  settled := fun h => absurd rfl h

/-- More events pushed leave what could come out. -/
theorem Releasable.mono {events events' : List ε} (h : events ⊆ events') {e : ε}
    (he : Releasable events e) : Releasable events' e := by
  induction he with
  | of e he before _ hnext ih => exact Releasable.of e (h he) before ih hnext

/-- An event pushed that is ready, under a watermark of events that could
come out, could itself. -/
theorem Releasable.of_ready {events : List ε} {delivered : GoString → ℤ}
    (hpos : ∀ node, 0 ≤ delivered node)
    (hbacked : ∀ node, 0 < delivered node →
      ∃ e, Releasable events e ∧ delivered node = seqOf e node)
    {e : ε} (he : e ∈ events) (hready : isReady delivered e = true) : Releasable events e := by
  have hle := (isReady_iff hpos).mp hready
  -- a component above one is at most one above what an earlier event brought
  have hbefore : ∀ node, ∃ e', 1 < seqOf e node →
      Releasable events e' ∧ seqOf e node ≤ seqOf e' node + 1 := by
    intro node
    by_cases hone : 1 < seqOf e node
    · have := hle node
      obtain ⟨e', he', heq⟩ := hbacked node (by omega)
      exact ⟨e', fun _ => ⟨he', by omega⟩⟩
    · exact ⟨e, fun h => absurd h hone⟩
  choose before hbefore using hbefore
  exact Releasable.of e he before (fun node h => (hbefore node h).1)
    fun node h => (hbefore node h).2

/-- Events that come out ready in their turn could come out. -/
theorem releasable_of_readyInTurn {events : List ε} (out : List (Numbered ε)) :
    ∀ delivered : GoString → ℤ, (∀ node, 0 ≤ delivered node) →
      (∀ node, 0 < delivered node → ∃ e, Releasable events e ∧ delivered node = seqOf e node) →
      (∀ e ∈ out, e.event ∈ events) → ReadyInTurn delivered out →
      (∀ e ∈ out, Releasable events e.event) ∧
        ∀ node, 0 < out.foldl deliver delivered node →
          ∃ e, Releasable events e ∧ out.foldl deliver delivered node = seqOf e node := by
  induction out with
  | nil => exact fun _ _ hbacked _ _ => ⟨fun _ h => absurd h List.not_mem_nil, hbacked⟩
  | cons e out ih =>
    intro delivered hpos hbacked hin hready
    have he : Releasable events e.event :=
      Releasable.of_ready hpos hbacked (hin e (List.mem_cons_self ..)) hready.1
    obtain ⟨hout, hbacked'⟩ := ih (deliver delivered e)
      (fun node => (hpos node).trans (le_deliver delivered e node))
      (fun node hnode => by
        rcases deliver_eq delivered e node with heq | heq
        · rw [heq] at hnode ⊢
          exact hbacked node hnode
        · exact ⟨e.event, he, heq⟩)
      (fun e' he' => hin e' (List.mem_cons_of_mem _ he')) hready.2
    exact ⟨List.forall_mem_cons.mpr ⟨he, hout⟩, hbacked'⟩

/-- **A push** leaves what came out. -/
theorem Usage.Good.push (h : u.Good calls) (e : ε) (now : ℚ) :
    (u.step (.push e now)).Good (calls ++ [.push e now]) where
  numbers := by
    show (u.pushed ++ [_]).map _ = _
    rw [List.map_append, h.numbers]
    simp [Usage.step, List.range_succ]
  events := by
    show (u.pushed ++ [_]).map _ = _
    rw [List.map_append, h.events]
    simp [pushes]
  perm := by
    refine (List.Perm.append_left _ (events_push _ _ _)).trans ?_
    refine List.perm_middle.trans ?_
    exact (h.perm.cons _).trans (List.perm_append_singleton _ _).symm
  seen := List.subset_append_of_subset_left _ h.seen
  watermark := h.watermark
  below := h.below
  complete := h.complete
  sound := h.sound
  settled := by
    intro hne
    obtain ⟨before, t, mid, rfl, hsettled⟩ := h.settled hne
    exact ⟨before, t, mid ++ [.push e now], by simp, hsettled⟩

/-- **A pop** returns what could come out and had not. -/
theorem Usage.Good.popReady (h : u.Good calls) (now : ℚ) :
    (u.step (.popReady now)).Good (calls ++ [.popReady now]) := by
  obtain ⟨released, hout, hperm, hwater, hforced, hready, hstuck⟩ := popReady_spec u.buffer now
  have hle := le_foldl_deliver released u.buffer.delivered
  have hbelow : ∀ e ∈ released, ∀ node,
      seqOf e node ≤ released.foldl deliver u.buffer.delivered node :=
    fun e he node => seqOf_le_foldl_deliver (h.watermark node) he
  rw [← hwater] at hle hbelow
  have hpushed : (u.delivered ++ (u.buffer.popReady now).2
      ++ (u.buffer.popReady now).1.events).Perm u.pushed := by
    rw [List.append_assoc]
    exact (hperm.append_left _).trans h.perm
  exact
    { numbers := h.numbers
      events := by
        show u.pushed.map _ = _
        rw [h.events]
        simp [pushes]
      perm := hpushed
      seen := List.Subset.refl u.pushed
      watermark := fun node => (h.watermark node).trans (hle node)
      below := by
        intro e he node
        rcases List.mem_append.mp he with he | he
        · exact (h.below e he node).trans (hle node)
        · exact hbelow e (hout.mem_iff.mp he) node
      complete := by
        intro e he hready
        rcases List.mem_append.mp (hpushed.mem_iff.mpr he) with he | he
        · exact he
        · -- held events are not ready
          obtain ⟨item, hitem, rfl⟩ := List.mem_map.mp he
          exact absurd hready (by simp [Usage.step, (hstuck item hitem).1])
      sound := by
        intro hzero
        have hzero : (u.buffer.popReady now).1.forced = 0 := hzero
        obtain ⟨hsound, hbacked⟩ := h.sound (by omega)
        have hmono := fun e => Releasable.mono (e := e) (List.map_subset (·.event) h.seen)
        have hin : ∀ e ∈ released, e.event ∈ u.pushed.map (·.event) := fun e he =>
          List.mem_map_of_mem (hpushed.mem_iff.mp
            (List.mem_append_left _ (List.mem_append_right _ (hout.mem_iff.mpr he))))
        -- nothing was forced in this pop either, so each came out ready in its turn
        obtain ⟨hnew, hbacked'⟩ := releasable_of_readyInTurn released _ h.watermark
          (fun node hnode => by
            obtain ⟨e, he, heq⟩ := hbacked node hnode
            exact ⟨e, hmono e he, heq⟩)
          hin (hready (by omega))
        rw [← hwater] at hbacked'
        refine ⟨fun e he => ?_, hbacked'⟩
        rcases List.mem_append.mp he with he | he
        · exact hmono e.event (hsound e he)
        · exact hnew e (hout.mem_iff.mp he)
      settled := fun _ => ⟨calls, now, [], rfl, h.events⟩ }

/-- **A sequence of calls.** -/
theorem good_run (timeout : ℚ) (calls : List (Call ε)) :
    (Usage.run timeout calls).Good calls := by
  induction calls using List.reverseRecOn with
  | nil => exact good_init timeout
  | append_singleton calls call ih =>
    unfold Usage.run at ih ⊢
    rw [List.foldl_append]
    cases call with
    | push e now => exact ih.push e now
    | popReady now => exact ih.popReady now

theorem Usage.Good.nodup (h : u.Good calls) : u.delivered.Nodup := by
  have hpushed : u.pushed.Nodup :=
    List.Nodup.of_map _ (h.numbers ▸ List.nodup_range)
  exact (List.nodup_append.mp (h.perm.nodup_iff.mpr hpushed)).1

/-- **What could come out has**, at a pop that saw it. -/
theorem Usage.Good.releasable (h : u.Good calls) {e : ε}
    (he : Releasable (u.settled.map (·.event)) e) : ∃ x ∈ u.delivered, x.event = e := by
  induction he with
  | of e he before _ hnext ih =>
    obtain ⟨x, hx, rfl⟩ := List.mem_map.mp he
    refine ⟨x, h.complete x hx ((isReady_iff h.watermark).mpr fun node => ?_), rfl⟩
    by_cases hone : 1 < seqOf x.event node
    · obtain ⟨y, hy, heq⟩ := ih node hone
      have hnext := hnext node hone
      rw [← heq] at hnext
      exact hnext.trans (Int.add_le_add_right (h.below y hy node) 1)
    · have := h.watermark node
      have hone : ¬ 1 < seqOf x node := hone
      omega

/-- Events sorted by their sums are in causal order. -/
theorem pair_sublist_of_sorted {l : List ε} (hsorted : l.Pairwise fun a b => vcSum a ≤ vcSum b)
    {a b : ε} (ha : a ∈ l) (hb : b ∈ l) (hab : vcSum a < vcSum b) : [a, b].Sublist l := by
  induction hsorted with
  | nil => cases ha
  | @cons c l hc _ ih =>
    rcases List.mem_cons.mp ha with rfl | hal
    · rcases List.mem_cons.mp hb with rfl | hbl
      · exact absurd hab (lt_irrefl _)
      · exact (List.singleton_sublist.mpr hbl).cons_cons a
    · rcases List.mem_cons.mp hb with rfl | hbl
      · exact absurd hab (not_lt.mpr (hc a hal))
      · exact (ih hal hbl).cons c

omit [HasClock ε] in
/-- Of two in a row without repetition, the first is not after the second. -/
theorem not_pair_sublist {l r : List (Numbered ε)} (hnodup : (l ++ r).Nodup) {a b : Numbered ε}
    (hb : b ∈ l) (ha : a ∉ l) : ¬ [a, b].Sublist (l ++ r) := by
  intro h
  obtain ⟨l₁, l₂, heq, hl, hr⟩ := List.sublist_append_iff.mp h
  cases l₁ with
  | nil =>
    rw [List.nil_append] at heq
    subst heq
    have hbr : b ∈ r := hr.subset (by simp)
    exact (List.nodup_append.mp hnodup).2.2 b hb b hbr rfl
  | cons x l₁ =>
    obtain ⟨rfl, -⟩ := List.cons.inj heq
    exact ha (hl.subset (List.mem_cons_self ..))

/-- What has come out stays in front. -/
theorem delivered_grows (calls : List (Call ε)) (u : Usage ε) :
    u.delivered <+: (calls.foldl Usage.step u).delivered := by
  induction calls generalizing u with
  | nil => exact List.prefix_rfl
  | cons call calls ih =>
    refine List.IsPrefix.trans ?_ (ih (u.step call))
    cases call with
    | push => exact List.prefix_rfl
    | popReady => exact List.prefix_append _ _

theorem mem_pushed_foldl (calls : List (Call ε)) (u : Usage ε) {x : Numbered ε}
    (hx : x ∈ u.pushed) : x ∈ (calls.foldl Usage.step u).pushed := by
  induction calls generalizing u with
  | nil => exact hx
  | cons call calls ih =>
    refine ih (u.step call) ?_
    cases call with
    | push => exact List.mem_append_left _ hx
    | popReady => exact hx

/-- A run that goes on has a count of forced events no smaller. -/
theorem forced_le_foldl (calls : List (Call ε)) (u : Usage ε) :
    u.buffer.forced ≤ (calls.foldl Usage.step u).buffer.forced := by
  induction calls generalizing u with
  | nil => exact le_rfl
  | cons call calls ih =>
    refine le_trans ?_ (ih (u.step call))
    cases call with
    | push => exact le_rfl
    | popReady now =>
      obtain ⟨-, -, -, -, hforced, -⟩ := popReady_spec u.buffer now
      exact hforced

/-- Calls in time are so at every point. -/
theorem InTime.of_append {calls calls' : List (Call ε)} (h : InTime (calls ++ calls')) :
    InTime calls := by
  rintro before now mid a now' rest rfl
  exact h before now mid a now' (rest ++ calls') (by simp)

/-- **In time is enough.** -/
theorem causal_of_inTime (timeout : ℚ) (calls : List (Call ε)) (h : InTime calls)
    (hforced : (Usage.run timeout calls).buffer.forced = 0) :
    (Usage.run timeout calls).Causal := by
  induction calls using List.reverseRecOn with
  | nil => exact fun _ _ _ hb => absurd hb List.not_mem_nil
  | append_singleton calls call ih =>
    have hgood := good_run timeout calls
    have hgood' := good_run timeout (calls ++ [call])
    unfold Usage.run at hforced ih hgood hgood' ⊢
    rw [List.foldl_append] at hforced hgood' ⊢
    have hle := forced_le_foldl [call] (calls.foldl Usage.step (Usage.init timeout))
    have hforced' := Nat.le_zero.mp (hle.trans hforced.le)
    have ih := ih h.of_append hforced'
    set u := calls.foldl Usage.step (Usage.init timeout)
    intro a ha b hb hab
    cases call with
    | push e now =>
      rcases List.mem_append.mp ha with ha | ha
      · exact ih a ha b hb hab
      · -- the new event precedes nothing that came out
        obtain rfl := List.mem_singleton.mp ha
        obtain ⟨before, t, mid, rfl, hsettled⟩ := hgood.settled (List.ne_nil_of_mem hb)
        have hb' := (hgood.sound hforced').1 b hb
        rw [hsettled] at hb'
        exact absurd hab (h before t mid e now [] (by simp) b.event hb')
    | popReady now =>
      obtain ⟨-, hperm, -, -, -, hstuck⟩ := popReady_spec u.buffer now
      -- what precedes an event that came out is below the watermark, so it came out too
      have hready : isReady (u.buffer.popReady now).1.delivered a = true := by
        refine (isReady_iff hgood'.watermark).mpr fun node => ?_
        have := hab.1 node
        have := hgood'.below b hb node
        omega
      have hout : a ∈ u.delivered ++ (u.buffer.popReady now).2 :=
        hgood'.complete a ha hready
      rcases List.mem_append.mp hb with hb | hb
      · exact (ih a ha b hb hab).trans (List.sublist_append_left _ _)
      · rcases List.mem_append.mp hout with hout | hout
        · -- in an earlier pop
          exact (List.singleton_sublist.mpr hout).append (List.singleton_sublist.mpr hb)
        · -- in the same pop, which sorts by the sums
          exact (pair_sublist_of_sorted (popReady_sorted u.buffer now) hout hb hab.vcSum_lt).trans
            (List.sublist_append_right _ _)

/-- An event pushed after one that it precedes has come out. -/
theorem Usage.Good.not_causal_of_late (h : u.Good calls) {a : ε} {x : Numbered ε} (now : ℚ)
    (rest : List (Call ε)) (hx : x ∈ u.delivered) (hax : Precedes a x.event)
    (hgood : ((Call.push a now :: rest).foldl Usage.step u).Good
      (calls ++ Call.push a now :: rest)) :
    ¬ ((Call.push a now :: rest).foldl Usage.step u).Causal := by
  intro hcausal
  obtain ⟨late, hlate⟩ := delivered_grows (Call.push a now :: rest) u
  -- what came out before the push has a smaller number
  have ha : (⟨u.pushed.length, a⟩ : Numbered ε) ∉ u.delivered := by
    intro hmem
    have hmem := List.mem_map_of_mem (f := (·.number))
      (h.perm.mem_iff.mp (List.mem_append_left _ hmem))
    rw [h.numbers, List.mem_range] at hmem
    exact absurd hmem (lt_irrefl _)
  have hpushed := mem_pushed_foldl rest (u.step (.push a now))
    (List.mem_append_right _ (List.mem_singleton.mpr rfl))
  have hpair := hcausal ⟨u.pushed.length, a⟩ hpushed x
    ((delivered_grows (Call.push a now :: rest) u).subset hx) hax
  have hnodup := hgood.nodup
  rw [← hlate] at hpair hnodup
  exact not_pair_sublist hnodup hx ha hpair

/-- **And needed**: an event pushed late comes out late. -/
theorem inTime_of_causal (timeout : ℚ) (calls : List (Call ε))
    (h : (Usage.run timeout calls).Causal) : InTime calls := by
  rintro before now mid a now' rest rfl b hb hab
  have hgood := good_run timeout (before ++ [Call.popReady now])
  have hsettled : (Usage.run timeout (before ++ [Call.popReady now])).settled.map (·.event)
      = pushes before := by
    unfold Usage.run
    rw [List.foldl_append]
    exact (good_run timeout before).events
  obtain ⟨x, hx, rfl⟩ := hgood.releasable (hsettled.symm ▸ hb)
  -- the calls up to the late push, and from it on
  have hsplit : before ++ Call.popReady now :: (mid ++ Call.push a now' :: rest)
      = (before ++ [Call.popReady now] ++ mid) ++ Call.push a now' :: rest := by simp
  have hgood₂ := good_run timeout (before ++ [Call.popReady now] ++ mid)
  have hgood₃ := good_run timeout (before ++ [Call.popReady now] ++ mid ++ Call.push a now' :: rest)
  have hx₂ : x ∈ (Usage.run timeout (before ++ [Call.popReady now] ++ mid)).delivered := by
    unfold Usage.run
    rw [List.foldl_append]
    exact (delivered_grows mid _).subset hx
  rw [hsplit] at h
  unfold Usage.run at h hgood₃
  rw [List.foldl_append] at h hgood₃
  exact hgood₂.not_causal_of_late now' rest hx₂ hab hgood₃ h

/-- **When delivery is causal**: for every sequence of calls in which
nothing is forced, exactly if no event is pushed after a `pop_ready` by
which an event that it precedes could come out. -/
theorem causal_iff (timeout : ℚ) (calls : List (Call ε))
    (hforced : (Usage.run timeout calls).buffer.forced = 0) :
    (Usage.run timeout calls).Causal ↔ InTime calls :=
  ⟨inTime_of_causal timeout calls, fun h => causal_of_inTime timeout calls h hforced⟩

/-- A match with no boards. -/
def emptyMatch (clock : Metastore.VectorClock) : MatchEvent := ⟨[], [], [], [], some clock⟩

/-- The first event of one node, and one of another node that depends on
it. -/
def earlier : MatchEvent :=
  emptyMatch ⟨⟨[⟨[109], 1⟩], by simp [List.NodupKeys, List.keys]⟩, by decide⟩

def later : MatchEvent :=
  emptyMatch ⟨⟨[⟨[109], 1⟩, ⟨[110], 1⟩], by simp [List.NodupKeys, List.keys]⟩, by decide⟩

/-- The event that depends on the other arrives before it. -/
def lateCalls : List (Call MatchEvent) :=
  [.push later 0, .popReady 1, .push earlier 2, .popReady 3]

theorem causal_iff_late :
    (Usage.run 30 lateCalls).buffer.forced = 0 ∧
      ((Usage.run 30 lateCalls).Causal ↔ InTime lateCalls) :=
  ⟨by decide, causal_iff 30 lateCalls (by decide)⟩

/-- **Delivery need not be causal**: the event that depends on the other
comes out while the other has not arrived. -/
theorem not_causal : ¬ ∀ (timeout : ℚ) (calls : List (Call MatchEvent)),
    (Usage.run timeout calls).buffer.forced = 0 → (Usage.run timeout calls).Causal := by
  intro h
  have hle : ∀ node, seqOf (⟨1, earlier⟩ : Numbered MatchEvent) node
      ≤ seqOf (⟨0, later⟩ : Numbered MatchEvent) node := by
    intro node
    rcases mem_clockItems_or (⟨1, earlier⟩ : Numbered MatchEvent) node with hmem | hzero
    · obtain ⟨rfl, -⟩ := Prod.mk.inj (List.mem_singleton.mp hmem)
      decide
    · rw [hzero]
      rcases mem_clockItems_or (⟨0, later⟩ : Numbered MatchEvent) node with hmem | hzero
      · have hpos : ∀ p ∈ clockItems (⟨0, later⟩ : Numbered MatchEvent), 0 ≤ p.2 := by decide
        exact hpos _ hmem
      · exact hzero.ge
  have hpair := h 30 lateCalls (by decide) ⟨1, earlier⟩ (by decide) ⟨0, later⟩ (by decide)
    ⟨hle, [110], by decide⟩
  exact absurd hpair (by decide)

end Processor

end TftAnalytics

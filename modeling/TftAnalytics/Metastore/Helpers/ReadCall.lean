import TftAnalytics.Metastore.Helpers.Trees
/-!
# Metastore — what the answers of a read stand for

Helper layer. A call of `Read` that has an answer from a node has an entry
of at least the rank that node held when the call started: its best is the
largest of what it was answered, and nobody answers less than it held.
-/

namespace TftAnalytics

namespace Metastore

open Hasher Peers

variable {env : Env} {maxMemBytes : ℤ} {c : Cluster} {ev : Event} {n : GoString} {nd : Node}
variable {r : ReadCall} {S U : Finset GoString} {bound : WithBot (ℤ ×ₗ ℤ)}

/-- **The nodes of `S` hold a rank for a key.** -/
def Cluster.Holds (env : Env) (c : Cluster) (S : Finset GoString) (key : GoString)
    (bound : WithBot (ℤ ×ₗ ℤ)) : Prop := ∀ x ∈ S, bound ≤ c.top env x key

namespace ReadCall

/-- **What a call of `Read` among the nodes of `U` has learnt**: it has an
answer from each of as many nodes as it counts, the node itself first, and
from those of `S` it has the rank they hold. -/
structure Tracks (env : Env) (U S : Finset GoString) (bound : WithBot (ℤ ×ₗ ℤ)) (r : ReadCall) :
    Prop where
  nodup : (r.rest ++ (r.asked.map Prod.fst).toList).Nodup
  within : ∀ x ∈ r.rest ++ (r.asked.map Prod.fst).toList, x ∈ U
  best : ∀ b ∈ r.best, b ∈ Storable (clockRanking fun _ => True) env.codec (readKey r.req)
  answer : ∀ x a, r.asked = some (x, some a) →
    (∀ b ∈ a, b ∈ Storable (clockRanking fun _ => True) env.codec (readKey r.req)) ∧
      (x ∈ S → bound ≤ optRank clockRank a)
  heard : ∃ t ⊆ U, t.card = r.responses ∧
    (∀ x ∈ t, x ∉ r.rest ∧ x ∉ r.asked.map Prod.fst) ∧
    (∀ x ∈ t, x ∈ S → bound ≤ optRank clockRank r.best) ∧
    (r.self ∈ t ∨ r.rest.head? = some r.self ∧ r.asked = none)

/-- The node itself is put first. -/
theorem tracks_start {self : GoString} {boot : ℕ} {req : ReadRequest} {owners : List GoString}
    (hnodup : owners.Nodup) (hU : ∀ x ∈ owners, x ∈ U) (hself : self ∈ owners) :
    (start self boot req owners).Tracks env U S bound := by
  have hperm : (orderSelfFirst self owners).Perm owners := by
    have hsplit := List.filter_append_perm (fun o => decide (o = self)) owners
    simpa [orderSelfFirst] using hsplit
  have hne : owners ≠ [] := List.ne_nil_of_mem hself
  have hrest : (start self boot req owners).rest = orderSelfFirst self owners := by
    simp [start, hne]
  refine ⟨?_, ?_, by simp [start], by simp [start], ∅, by simp, rfl, by simp, by simp, Or.inr ?_⟩
  · rw [hrest]
    simpa [start] using hperm.nodup_iff.mpr hnodup
  · rw [hrest]
    simpa [start] using fun x hx => hU x (hperm.mem_iff.mp hx)
  · refine ⟨?_, rfl⟩
    rw [hrest, orderSelfFirst, List.filter_eq]
    have hcount : List.count self owners = 1 := List.count_eq_one_of_mem hnodup hself
    simp [hcount, start]

/-- The node itself has answered, unless it is to come. -/
theorem Tracks.self_notMem (h : r.Tracks env U S bound)
    (hpast : r.rest.head? ≠ some r.self ∨ r.asked ≠ none) : r.self ∉ r.rest ∧ 1 ≤ r.responses := by
  obtain ⟨t, -, hcard, hout, -, hself | ⟨hhead, hasked⟩⟩ := h.heard
  · refine ⟨(hout _ hself).1, ?_⟩
    rw [← hcard]
    exact Finset.card_pos.mpr ⟨_, hself⟩
  · rcases hpast with hpast | hpast
    · exact absurd hhead hpast
    · exact absurd hasked hpast

/-- **An answer is counted**: the call has what the node that answered
holds. -/
theorem Tracks.count (h : r.Tracks env U S bound) (r' : ReadCall) (x : GoString)
    {a : Option StatEntry} (hx : x ∈ U) (hreq : r'.req = r.req) (hslf : r'.self = r.self)
    (hbest : r'.best = r.best) (hresp : r'.responses = r.responses) (hasked : r'.asked = none)
    (hrest : r'.rest.Nodup) (hsub : ∀ y ∈ r'.rest, y ∈ r.rest) (hxrest : x ∉ r'.rest)
    (hnew : x ∈ r.rest ∨ x ∈ r.asked.map Prod.fst)
    (hself : x = r.self ∨ r.rest.head? ≠ some r.self ∨ r.asked ≠ none)
    (ha : ∀ b ∈ a, b ∈ Storable (clockRanking fun _ => True) env.codec (readKey r.req))
    (hbound : x ∈ S → bound ≤ optRank clockRank a) : (r'.count a).Tracks env U S bound := by
  -- `t` are the nodes heard, and `x` joins them
  obtain ⟨t, htU, hcard, hout, hlow, hfirst⟩ := h.heard
  have hC := choosesMax_storable (R := clockRanking fun _ => True) (c := env.codec) (readKey r.req)
  have hrank : optRank clockRank (pickNewer r.best a)
      = max (optRank clockRank r.best) (optRank clockRank a) := by
    rw [pickNewer_eq_pickOption]
    exact hC.optRank_pickOption h.best ha
  have hxt : x ∉ t := by
    intro hmem
    exact hnew.elim (hout x hmem).1 (hout x hmem).2
  refine ⟨?_, ?_, ?_, ?_, insert x t, ?_, ?_, ?_, ?_, ?_⟩
  · simpa [ReadCall.count, hasked] using hrest
  · simp only [ReadCall.count, hasked, Option.map_none, Option.toList_none, List.append_nil]
    exact fun y hy => h.within y (List.mem_append_left _ (hsub y hy))
  · simp only [ReadCall.count, hreq, hbest]
    rw [pickNewer_eq_pickOption]
    exact hC.mem_pickOption h.best ha
  · intro y b hy
    simp [ReadCall.count, hasked] at hy
  · exact Finset.insert_subset hx htU
  · rw [Finset.card_insert_of_notMem hxt, hcard, ReadCall.count, hresp]
  · intro y hy
    simp only [ReadCall.count, hasked, Option.map_none]
    refine ⟨?_, by simp⟩
    rcases Finset.mem_insert.mp hy with rfl | hy
    · exact hxrest
    · exact fun hmem => (hout y hy).1 (hsub y hmem)
  · intro y hy hyS
    simp only [ReadCall.count, hbest, hrank]
    rcases Finset.mem_insert.mp hy with rfl | hy
    · exact (hbound hyS).trans (le_max_right _ _)
    · exact (hlow y hy hyS).trans (le_max_left _ _)
  · refine Or.inl ?_
    simp only [ReadCall.count, hslf]
    rcases hself with rfl | hpast
    · exact Finset.mem_insert_self _ _
    · refine Finset.mem_insert_of_mem (hfirst.resolve_right fun hhead => ?_)
      exact hpast.elim (fun hne => hne hhead.1) fun hne => hne hhead.2

/-- The `break`. -/
theorem Tracks.settle (h : r.Tracks env U S bound) (hpast : r.self ∉ r.rest) :
    r.settle.Tracks env U S bound := by
  unfold ReadCall.settle
  split_ifs
  · obtain ⟨t, htU, hcard, hout, hlow, hfirst⟩ := h.heard
    have hnodup := (List.nodup_append'.mp h.nodup).2.1
    refine ⟨by simpa using hnodup, fun x hx => ?_, h.best, h.answer, t, htU, hcard,
      fun x hx => ⟨by simp, (hout x hx).2⟩, hlow, Or.inl ?_⟩
    · exact h.within x (List.mem_append_right _ (by simpa using hx))
    · exact hfirst.resolve_right fun hhead => hpast (List.mem_of_mem_head? hhead.1)
  · exact h

/-- **The loop body**: the node reads itself, asks a replica, or passes one
over. -/
theorem Tracks.look (h : r.Tracks env U S bound)
    (hfind : r.rest.head? = some r.self →
      (∀ b ∈ r.find env nd, b ∈ Storable (clockRanking fun _ => True) env.codec (readKey r.req)) ∧
        (r.self ∈ S → bound ≤ optRank clockRank (r.find env nd))) :
    (r.look env nd).Tracks env U S bound := by
  unfold ReadCall.look
  split
  · rename_i owner rest hasked hrest
    have hnodup := h.nodup
    have hwithin := h.within
    simp only [hrest, hasked, Option.map_none, Option.toList_none, List.append_nil,
      List.nodup_cons] at hnodup
    simp only [hrest, hasked, Option.map_none, Option.toList_none, List.append_nil,
      List.forall_mem_cons] at hwithin
    -- it is the node itself, a live replica, or one to pass over
    split_ifs with hself hlive
    · obtain ⟨hst, hbound⟩ := hfind (by rw [hrest, hself]; rfl)
      exact h.count { r with rest := rest } owner hwithin.1 rfl rfl rfl rfl hasked hnodup.2
        (fun y hy => by simp [hrest, hy]) hnodup.1 (Or.inl (by simp [hrest])) (Or.inl hself) hst
        (hself ▸ hbound)
    · obtain ⟨t, htU, hcard, hout, hlow, hfirst⟩ := h.heard
      refine ⟨?_, ?_, h.best, by simp, t, htU, hcard, fun x hx => ?_, hlow, Or.inl ?_⟩
      · simpa [List.nodup_append', hnodup.1] using hnodup.2
      · simpa [or_imp, forall_and] using ⟨hwithin.2, hwithin.1⟩
      · have hx' := (hout x hx).1
        rw [hrest, List.mem_cons, not_or] at hx'
        simpa [eq_comm] using hx'.symm
      · refine hfirst.resolve_right fun hhead => hself ?_
        simpa [hrest] using hhead.1
    · obtain ⟨t, htU, hcard, hout, hlow, hfirst⟩ := h.heard
      refine ⟨by simpa [hasked] using hnodup.2, by simpa [hasked] using hwithin.2, h.best,
        by simp [hasked], t, htU, hcard, fun x hx => ?_, hlow, Or.inl ?_⟩
      · have hx' := (hout x hx).1
        rw [hrest, List.mem_cons, not_or] at hx'
        exact ⟨hx'.2, by simp [hasked]⟩
      · refine hfirst.resolve_right fun hhead => hself ?_
        simpa [hrest] using hhead.1
  · exact h

/-- **A replica answers** with what its tree holds. -/
theorem Tracks.serve (h : r.Tracks env U S bound) {x : GoString} (hx : r.request = some x)
    (hst : ∀ b ∈ r.find env nd, b ∈ Storable (clockRanking fun _ => True) env.codec (readKey r.req))
    (hbound : x ∈ S → bound ≤ optRank clockRank (r.find env nd)) :
    (r.serve env nd).Tracks env U S bound := by
  have hmap : (r.serve env nd).asked.map Prod.fst = r.asked.map Prod.fst := by
    simp [ReadCall.serve, Function.comp_def]
  have hasked : r.asked.map Prod.fst = some x := by
    unfold ReadCall.request at hx
    split at hx
    · rename_i owner heq
      rw [heq, ← hx]
      rfl
    · cases hx
  obtain ⟨t, htU, hcard, hout, hlow, hfirst⟩ := h.heard
  refine ⟨?_, ?_, h.best, ?_, t, htU, hcard, fun y hy => ?_, hlow, Or.inl ?_⟩
  · rw [hmap]
    exact h.nodup
  · rw [hmap]
    exact h.within
  · intro y a hy
    obtain ⟨b, hb, heq⟩ := Option.map_eq_some_iff.mp hy
    rw [hb, Option.map_some, Option.some.injEq] at hasked
    simp only [Prod.mk.injEq, Option.some.injEq] at heq
    obtain ⟨rfl, rfl⟩ := heq
    exact ⟨hst, fun hyS => hbound (hasked ▸ hyS)⟩
  · rw [hmap]
    exact hout y hy
  · refine hfirst.resolve_right fun hhead => ?_
    rw [hhead.2] at hasked
    cases hasked

/-- **The coordinator has the result of a request**, an answer or none. -/
theorem Tracks.report (h : r.Tracks env U S bound) (ok : Bool) :
    (r.report ok).Tracks env U S bound := by
  unfold ReadCall.report
  split
  · rename_i x a hasked
    obtain ⟨hst, hbound⟩ := h.answer x a hasked
    have hpast := h.self_notMem (Or.inr (by simp [hasked]))
    have hnodup := h.nodup
    have hwithin := h.within
    simp only [hasked, Option.map_some, Option.toList_some, List.nodup_append',
      List.nodup_singleton, List.disjoint_singleton, true_and] at hnodup
    simp only [hasked, Option.map_some, Option.toList_some, List.mem_append, List.mem_singleton]
      at hwithin
    have hcount := h.count { r with asked := none } x (hwithin x (Or.inr rfl)) rfl rfl rfl rfl rfl
      hnodup.1 (fun y hy => hy) hnodup.2 (Or.inr (by simp [hasked]))
      (Or.inr (Or.inr (by simp [hasked]))) hst hbound
    exact hcount.settle hpast.1
  · rename_i asked hasked
    obtain ⟨t, htU, hcard, hout, hlow, hfirst⟩ := h.heard
    have hpast := h.self_notMem (Or.inr (by simp [hasked]))
    -- no answer: nobody is counted, and the request is done
    have hdrop : ({ r with asked := none } : ReadCall).Tracks env U S bound := by
      refine ⟨by simpa using (List.nodup_append'.mp h.nodup).1, fun x hx => ?_, h.best, by simp, t,
        htU, hcard, fun x hx => ⟨(hout x hx).1, by simp⟩, hlow, Or.inl ?_⟩
      · exact h.within x (List.mem_append_left _ (by simpa using hx))
      · refine hfirst.resolve_right fun hhead => ?_
        rw [hhead.2] at hasked
        cases hasked
    exact hdrop.settle hpast.1
  · exact h

/-- **A call that has returned** has the rank that the node itself held,
and the one that all of `S` hold if it counts more than miss it. -/
theorem Tracks.outcome (h : r.Tracks env U S bound) {best : Option StatEntry}
    (hout : r.outcome = some best)
    (hmeet : r.self ∈ S ∨ U.card < S.card + r.responses) (hS : S ⊆ U) :
    (∀ b ∈ best, Clocked b) ∧ bound ≤ optRank clockRank best := by
  unfold ReadCall.outcome at hout
  split_ifs at hout with hdone
  obtain rfl := Option.some.inj hout
  obtain ⟨t, htU, hcard, -, hlow, hfirst⟩ := h.heard
  refine ⟨fun b hb => (h.best b hb).1.2, ?_⟩
  rcases hmeet with hself | hcards
  · refine hlow r.self (hfirst.resolve_right fun hhead => ?_) hself
    rw [hdone.1] at hhead
    cases hhead.1
  · -- the nodes that answered and those that hold the rank overlap
    obtain ⟨x, hx⟩ : (S ∩ t).Nonempty := by
      rw [← Finset.card_pos]
      have hunion := Finset.card_le_card (Finset.union_subset hS htU)
      have hsum := Finset.card_union_add_card_inter S t
      omega
    exact hlow x (Finset.mem_inter.mp hx).2 (Finset.mem_inter.mp hx).1

/-- An answer makes it two. -/
theorem Tracks.two_le (h : r.Tracks env U S bound) {x : GoString} {a : Option StatEntry}
    (hasked : r.asked = some (x, some a)) : 2 ≤ (r.report true).responses := by
  have hpast := h.self_notMem (Or.inr (by simp [hasked]))
  have hresp : (r.report true).responses = r.responses + 1 := by
    simp only [ReadCall.report, hasked, ReadCall.settle]
    split_ifs <;> rfl
  omega

/-- No event takes an answer back, and none changes whose call it is. -/
theorem report_mono (ok : Bool) (r : ReadCall) :
    r.responses ≤ (r.report ok).responses ∧ (r.report ok).self = r.self ∧
      (r.report ok).req = r.req := by
  have hsettle : ∀ r : ReadCall, r.settle.responses = r.responses ∧ r.settle.self = r.self ∧
      r.settle.req = r.req := by
    intro r
    unfold ReadCall.settle
    split_ifs <;> exact ⟨rfl, rfl, rfl⟩
  unfold ReadCall.report
  split
  · obtain ⟨hresp, hself, hreq⟩ := hsettle (ReadCall.count _ { r with asked := none })
    rw [hresp, hself, hreq]
    exact ⟨Nat.le_succ _, rfl, rfl⟩
  · obtain ⟨hresp, hself, hreq⟩ := hsettle { r with asked := none }
    rw [hresp, hself, hreq]
    exact ⟨le_rfl, rfl, rfl⟩
  · exact ⟨le_rfl, rfl, rfl⟩

theorem look_mono (env : Env) (nd : Node) (r : ReadCall) :
    r.responses ≤ (r.look env nd).responses ∧ (r.look env nd).self = r.self ∧
      (r.look env nd).req = r.req := by
  unfold ReadCall.look
  split
  · split_ifs
    · exact ⟨Nat.le_succ _, rfl, rfl⟩
    · exact ⟨le_rfl, rfl, rfl⟩
    · exact ⟨le_rfl, rfl, rfl⟩
  · exact ⟨le_rfl, rfl, rfl⟩

end ReadCall

/-! ## Runs -/

/-- **What becomes of a call of `Read`.** -/
theorem Cluster.reads_step (env : Env) (maxMemBytes : ℤ) {k : ℕ} (hr : c.reads[k]? = some r)
    (ev : Event) :
    ∃ r', (c.step env maxMemBytes ev).reads[k]? = some r' ∧
      (r' = r ∨ (∃ nd ∈ c.coordinator r.self r.boot, r' = r.look env nd) ∨
        (∃ x, r.request = some x ∧ ∃ nd ∈ c.running x, r' = r.serve env nd) ∨
        ∃ ok, r' = r.report ok) := by
  -- an event is about one call, and leaves the others
  have hmodify : ∀ j (f : ReadCall → ReadCall), (c.reads.modify j f)[k]?
      = some (if j = k then f r else r) := by
    intro j f
    rw [List.getElem?_modify, hr]
    rfl
  cases ev with
  | startRead n req =>
    refine ⟨r, ?_, Or.inl rfl⟩
    exact List.getElem?_append_left (List.getElem?_eq_some_iff.mp hr).1 |>.trans hr
  | readLook j =>
    refine ⟨_, hmodify j _, ?_⟩
    split_ifs
    · cases hc : c.coordinator r.self r.boot with
      | none => exact Or.inl rfl
      | some nd => exact Or.inr (Or.inl ⟨nd, rfl, rfl⟩)
    · exact Or.inl rfl
  | readServe j =>
    refine ⟨_, hmodify j _, ?_⟩
    split_ifs
    · cases hc : r.request.bind c.running with
      | none => exact Or.inl rfl
      | some nd =>
        obtain ⟨x, hx, hnd⟩ := Option.bind_eq_some_iff.mp hc
        exact Or.inr (Or.inr (Or.inl ⟨x, hx, nd, hnd, rfl⟩))
    · exact Or.inl rfl
  | readReport j ok =>
    refine ⟨_, hmodify j _, ?_⟩
    split_ifs
    · cases hc : c.coordinator r.self r.boot with
      | none => exact Or.inl rfl
      | some nd => exact Or.inr (Or.inr (Or.inr ⟨ok, rfl⟩))
    · exact Or.inl rfl
  | _ => exact ⟨r, hr, Or.inl rfl⟩

/-- **One event of a cluster keeps track of a call of `Read`.** -/
theorem Cluster.Good.tracks_step (hgood : c.Good env) (maxMemBytes : ℤ) {k : ℕ}
    (hr : c.reads[k]? = some r) (htracks : r.Tracks env U S bound)
    (hholds : c.Holds env S (readKey r.req) bound) (ev : Event) :
    ∃ r', (c.step env maxMemBytes ev).reads[k]? = some r' ∧ r'.Tracks env U S bound ∧
      r'.self = r.self ∧ r'.req = r.req ∧ r.responses ≤ r'.responses := by
  obtain ⟨r', hr', hcases⟩ := Cluster.reads_step env maxMemBytes hr ev
  refine ⟨r', hr', ?_⟩
  rcases hcases with rfl | ⟨nd, hnd, rfl⟩ | ⟨x, hx, nd, hnd, rfl⟩ | ⟨ok, rfl⟩
  · exact ⟨htracks, rfl, rfl, le_rfl⟩
  · obtain ⟨hst, hrank⟩ := hgood.find (Cluster.running_of_coordinator hnd) (readKey r.req)
    obtain ⟨hresp, hself, hreq⟩ := r.look_mono env nd
    refine ⟨htracks.look fun _ => ⟨hst, fun hS => ?_⟩, hself, hreq, hresp⟩
    exact (hholds _ hS).trans_eq hrank.symm
  · obtain ⟨hst, hrank⟩ := hgood.find hnd (readKey r.req)
    refine ⟨htracks.serve hx hst fun hS => ?_, rfl, rfl, le_rfl⟩
    exact (hholds _ hS).trans_eq hrank.symm
  · obtain ⟨hresp, hself, hreq⟩ := r.report_mono ok
    exact ⟨htracks.report ok, hself, hreq, hresp⟩

/-- **Along a run, a call of `Read` is kept track of.** -/
theorem Cluster.Good.tracks_run (hgood : c.Good env) {k : ℕ} (hr : c.reads[k]? = some r)
    (htracks : r.Tracks env U S bound) (hholds : c.Holds env S (readKey r.req) bound)
    {evs : List Event} (hunburied : c.Unburied env maxMemBytes evs) :
    ∃ r', (c.run env maxMemBytes evs).reads[k]? = some r' ∧ r'.Tracks env U S bound ∧
      r'.self = r.self ∧ r'.req = r.req ∧ r.responses ≤ r'.responses := by
  induction evs generalizing c r with
  | nil => exact ⟨r, hr, htracks, rfl, rfl, le_rfl⟩
  | cons ev evs ih =>
    obtain ⟨hgood', hmono⟩ := hgood.step maxMemBytes hunburied.1
    obtain ⟨r₁, hr₁, htracks₁, hself₁, hreq₁, hresp₁⟩ :=
      hgood.tracks_step maxMemBytes hr htracks hholds ev
    have hholds₁ : (c.step env maxMemBytes ev).Holds env S (readKey r₁.req) bound := by
      rw [hreq₁]
      exact fun x hx => (hholds x hx).trans (hmono x _)
    obtain ⟨r', hr', htracks', hself', hreq', hresp'⟩ := ih hgood' hr₁ htracks₁ hholds₁ hunburied.2
    exact ⟨r', hr', htracks', hself'.trans hself₁, hreq'.trans hreq₁, hresp₁.trans hresp'⟩

end Metastore

end TftAnalytics

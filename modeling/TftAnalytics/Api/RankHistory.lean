import TftAnalytics.Api.Model.RankHistory
import TftAnalytics.Common.Grouping
import Mathlib.Order.Lattice
/-!
# API — one snapshot a day

The history of a player after any calls. A call on the day of the last
snapshot replaces it and a call on a later day comes after it, so the
dates ascend; a snapshot is left out only where the last one shows the
same rank.
-/

namespace TftAnalytics

namespace Api

variable {D : Type}

/-- The snapshots of a call carry its date. -/
theorem RankCall.date_snap {c : RankCall D} {snap : RankSnapshot D} (h : c.snap = some snap) :
    snap.date = c.today := by
  obtain ⟨rank, -, hsnap⟩ := Option.bind_eq_some_iff.mp h
  unfold Rank.snap at hsnap
  split at hsnap
  · cases hsnap
  · dsimp only at hsnap
    split_ifs at hsnap
    obtain rfl := Option.some.inj hsnap
    rfl

theorem snap_of_tier {rank : Rank} {tier : GoString} (htier : rank.tier = some tier)
    (hranked : tier ≠ unranked) (today : D) :
    ∃ snap, rank.snap today = some snap ∧ snap.tier = tier ∧
      snap.division = rank.division.getD [] ∧ snap.lp = rank.lp := by
  unfold Rank.snap
  simp only [htier, if_neg hranked]
  exact ⟨_, rfl, rfl, rfl, rfl⟩

theorem snap_of_unranked {rank : Rank} (h : rank.tier = none ∨ rank.tier = some unranked)
    (today : D) : rank.snap today = none := by
  unfold Rank.snap
  rcases h with h | h
  · rw [h]
  · rw [h]
    exact if_pos rfl

theorem mem_recent {hist : List (RankSnapshot D)} {s : RankSnapshot D} (h : s ∈ recent hist) :
    s ∈ hist := List.mem_of_mem_drop h

theorem length_recent_le (hist : List (RankSnapshot D)) : (recent hist).length ≤ historyLength := by
  rw [recent, List.length_drop]
  omega

/-- The last snapshot is kept. -/
theorem getLast?_recent {hist : List (RankSnapshot D)} {last : RankSnapshot D}
    (h : hist.getLast? = some last) : (recent hist).getLast? = some last := by
  have hpos : 0 < hist.length := List.length_pos_of_mem (List.mem_of_getLast? h)
  unfold recent historyLength
  rw [List.getLast?_drop, if_neg (by omega), h]

variable [LinearOrder D]

/-- The stored history of a player. -/
def storedHistory (file : Option (RankStore D)) (puuid : GoString) : List (RankSnapshot D) :=
  held [] (loadStore file) puuid

namespace RankCall

variable {c : RankCall D} {file : Option (RankStore D)}

omit [LinearOrder D] in
theorem modify_eq [DecidableEq D] (c : RankCall D) (store : RankStore D) :
    (c.modify store).1 = c.snap.map fun snap =>
      upsert [] (fun _ => recent (revise (held [] store c.puuid) snap)) c.puuid store := by
  unfold modify
  rcases c.snap with _ | snap <;> rfl

/-- **A call without a rank** changes nothing. -/
theorem recordRank_of_none (h : c.snap = none) : (c.recordRank file).1 = file := by
  unfold recordRank modify
  rw [h]

/-- **A call with a rank** revises the history of its player. -/
theorem recordRank_of_some {snap : RankSnapshot D} (h : c.snap = some snap) :
    (c.recordRank file).1 = saveStore c.saved
      (upsert [] (fun _ => recent (revise (storedHistory file c.puuid) snap)) c.puuid
        (loadStore file)) file := by
  unfold recordRank modify
  rw [h]
  rfl

theorem storedHistory_recordRank {snap : RankSnapshot D} (h : c.snap = some snap)
    (hsaved : c.saved = true) :
    storedHistory (c.recordRank file).1 c.puuid
      = recent (revise (storedHistory file c.puuid) snap) := by
  rw [recordRank_of_some h, saveStore, if_pos hsaved]
  show held [] (upsert _ _ _ _) _ = _
  rw [held_upsert, if_pos rfl]

/-- **What a call may do** to a history. -/
theorem storedHistory_recordRank_cases (c : RankCall D) (file : Option (RankStore D))
    (puuid : GoString) :
    storedHistory (c.recordRank file).1 puuid = storedHistory file puuid ∨
      c.puuid = puuid ∧ ∃ snap, c.snap = some snap ∧
        storedHistory (c.recordRank file).1 puuid
          = recent (revise (storedHistory file puuid) snap) := by
  rcases hsnap : c.snap with _ | snap
  · exact Or.inl (by rw [recordRank_of_none hsnap])
  rcases hsaved : c.saved with _ | _
  · rw [recordRank_of_some hsnap, hsaved]
    exact Or.inl rfl
  · by_cases hp : c.puuid = puuid
    · subst hp
      exact Or.inr ⟨rfl, snap, rfl, storedHistory_recordRank hsnap hsaved⟩
    · refine Or.inl ?_
      rw [recordRank_of_some hsnap, saveStore, if_pos hsaved]
      show held [] (upsert _ _ _ _) _ = _
      rw [held_upsert, if_neg hp]
      rfl

end RankCall

/-! ## One history -/

theorem mem_revise {hist : List (RankSnapshot D)} {snap s : RankSnapshot D}
    (h : s ∈ revise hist snap) : s ∈ hist ∨ s = snap := by
  unfold revise at h
  split at h
  · simpa using h
  · split_ifs at h
    · rcases List.mem_append.mp h with h | h
      · exact Or.inl ((List.dropLast_sublist hist).subset h)
      · exact Or.inr (List.mem_singleton.mp h)
    · simpa using h
    · exact Or.inl h

/-- **The last snapshot shows the rank of the call.** -/
theorem getLast?_recent_revise (hist : List (RankSnapshot D)) (snap : RankSnapshot D) :
    ∃ last, (recent (revise hist snap)).getLast? = some last ∧ last.sig = snap.sig := by
  have hrevise : ∃ last, (revise hist snap).getLast? = some last ∧ last.sig = snap.sig := by
    unfold revise
    split
    · exact ⟨snap, List.getLast?_concat .., rfl⟩
    · rename_i last hlast
      split_ifs with hdate hsig
      · exact ⟨snap, List.getLast?_concat .., rfl⟩
      · exact ⟨snap, List.getLast?_concat .., rfl⟩
      · exact ⟨last, hlast, not_not.mp hsig⟩
  obtain ⟨last, hlast, hsig⟩ := hrevise
  exact ⟨last, getLast?_recent hlast, hsig⟩

/-- **The dates ascend** once more, if the snapshot is not older than the
history. -/
theorem pairwise_recent_revise {hist : List (RankSnapshot D)} {snap : RankSnapshot D}
    (hdates : (hist.map (·.date)).Pairwise (· < ·)) (hle : ∀ s ∈ hist, s.date ≤ snap.date) :
    ((recent (revise hist snap)).map (·.date)).Pairwise (· < ·) := by
  have hrevise : ((revise hist snap).map (·.date)).Pairwise (· < ·) := by
    unfold revise
    rcases List.eq_nil_or_concat' hist with rfl | ⟨init, last, rfl⟩
    · simp
    · rw [List.map_append, List.pairwise_append] at hdates
      obtain ⟨hinit, -, hbefore⟩ := hdates
      have hlast : last.date ≤ snap.date := hle last (by simp)
      have hbefore' : ∀ s ∈ init, s.date < last.date := fun s hs =>
        hbefore s.date (List.mem_map_of_mem hs) last.date (by simp)
      simp only [List.getLast?_concat, List.dropLast_concat]
      split_ifs with hdate hsig
      · rw [List.map_append, List.pairwise_append]
        refine ⟨hinit, by simp, fun d hd d' hd' => ?_⟩
        obtain ⟨s, hs, rfl⟩ := List.mem_map.mp hd
        obtain rfl : d' = snap.date := by simpa using hd'
        exact hdate ▸ hbefore' s hs
      · -- the last snapshot is of an earlier day
        have hlt : last.date < snap.date := lt_of_le_of_ne hlast hdate
        rw [List.map_append, List.pairwise_append, List.map_append, List.pairwise_append]
        refine ⟨⟨hinit, by simp, hbefore⟩, by simp, fun d hd d' hd' => ?_⟩
        obtain rfl : d' = snap.date := by simpa using hd'
        rcases List.mem_append.mp hd with hd | hd
        · obtain ⟨s, hs, rfl⟩ := List.mem_map.mp hd
          exact (hbefore' s hs).trans hlt
        · obtain rfl : d = last.date := by simpa using hd
          exact hlt
      · rw [List.map_append, List.pairwise_append]
        exact ⟨hinit, by simp, hbefore⟩
  exact hrevise.sublist ((List.drop_sublist _ _).map _)

/-! ## Runs -/

/-- What holds of the history of a player after some calls. -/
structure Chronicle (calls : List (RankCall D)) (puuid : GoString)
    (hist : List (RankSnapshot D)) : Prop where
  ascending : (hist.map (·.date)).Pairwise (· < ·)
  length_le : hist.length ≤ historyLength
  dates : ∀ s ∈ hist, ∃ c ∈ calls, c.puuid = puuid ∧ s.date = c.today

/-- The files that a sequence of calls leaves. -/
def recordAll (calls : List (RankCall D)) (file : Option (RankStore D)) : Option (RankStore D) :=
  calls.foldl (fun file c => (c.recordRank file).1) file

theorem Chronicle.recordRank {calls : List (RankCall D)} {c : RankCall D} {puuid : GoString}
    {file : Option (RankStore D)} (h : Chronicle calls puuid (storedHistory file puuid))
    (hle : ∀ c' ∈ calls, c'.puuid = puuid → c.puuid = puuid → c'.today ≤ c.today) :
    Chronicle (calls ++ [c]) puuid (storedHistory (c.recordRank file).1 puuid) := by
  rcases c.storedHistory_recordRank_cases file puuid with heq | ⟨hp, snap, hsnap, heq⟩
  · rw [heq]
    refine ⟨h.ascending, h.length_le, fun s hs => ?_⟩
    obtain ⟨c', hc', hdate⟩ := h.dates s hs
    exact ⟨c', List.mem_append_left _ hc', hdate⟩
  · rw [heq]
    have hdate := RankCall.date_snap hsnap
    refine ⟨pairwise_recent_revise h.ascending fun s hs => ?_, length_recent_le _, fun s hs => ?_⟩
    · obtain ⟨c', hc', hp', hs'⟩ := h.dates s hs
      rw [hs', hdate]
      exact hle c' hc' hp' hp
    · rcases mem_revise (mem_recent hs) with hs | rfl
      · obtain ⟨c', hc', hs'⟩ := h.dates s hs
        exact ⟨c', List.mem_append_left _ hc', hs'⟩
      · exact ⟨c, by simp, hp, hdate⟩

theorem chronicle_recordAll {file : Option (RankStore D)} {puuid : GoString}
    (hfresh : storedHistory file puuid = []) (calls : List (RankCall D))
    (hdates : ((calls.filter (·.puuid = puuid)).map (·.today)).Pairwise (· ≤ ·)) :
    Chronicle calls puuid (storedHistory (recordAll calls file) puuid) := by
  induction calls using List.reverseRecOn with
  | nil =>
    refine ⟨?_, ?_, ?_⟩ <;> simp [recordAll, hfresh]
  | append_singleton calls c ih =>
    rw [List.filter_append, List.map_append, List.pairwise_append] at hdates
    obtain ⟨hbefore, -, hlast⟩ := hdates
    unfold recordAll
    rw [List.foldl_concat]
    refine (ih hbefore).recordRank fun c' hc' hp' hp => ?_
    refine hlast _ (List.mem_map_of_mem ?_) _ (List.mem_map_of_mem ?_)
    · exact List.mem_filter.mpr ⟨hc', by simpa using hp'⟩
    · exact List.mem_filter.mpr ⟨List.mem_singleton_self c, by simpa using hp⟩

/-- **One snapshot a day, and the last one is right.** For a player without
a history, after any calls, those for the player on dates that do not go
back: the dates of the history ascend strictly and there are 120
snapshots at most; one more call with a rank, once it is saved, leaves a
history that ends with its tier, division and points; and a call without a
rank changes nothing. -/
theorem rank_history (file : Option (RankStore D)) (puuid : GoString)
    (hfresh : storedHistory file puuid = []) (calls : List (RankCall D))
    (hdates : ((calls.filter (·.puuid = puuid)).map (·.today)).Pairwise (· ≤ ·)) :
    let after := recordAll calls file
    ((storedHistory after puuid).map (·.date)).Pairwise (· < ·) ∧
      (storedHistory after puuid).length ≤ 120 ∧
      (∀ (today : D) (rank : Rank) (tier : GoString), rank.tier = some tier → tier ≠ unranked →
        ∃ last,
          (storedHistory (RankCall.recordRank ⟨puuid, today, some rank, true⟩ after).1
            puuid).getLast? = some last ∧
          last.tier = tier ∧ last.division = rank.division.getD [] ∧ last.lp = rank.lp) ∧
      ∀ c : RankCall D, (∀ rank, c.rank = some rank →
        rank.tier = none ∨ rank.tier = some unranked) → (c.recordRank after).1 = after := by
  intro after
  have h := chronicle_recordAll hfresh calls hdates
  refine ⟨h.ascending, h.length_le, fun today rank tier htier hranked => ?_, fun c hc => ?_⟩
  · obtain ⟨snap, hsnap, rfl, hdivision, hlp⟩ := snap_of_tier htier hranked today
    obtain ⟨last, hlast, hsig⟩ := getLast?_recent_revise (storedHistory after puuid) snap
    refine ⟨last, ?_, ?_⟩
    · rw [← hlast]
      exact congrArg List.getLast? (RankCall.storedHistory_recordRank
        (c := ⟨puuid, today, some rank, true⟩) hsnap rfl)
    · obtain ⟨hsigtier, hsigrest⟩ := Prod.mk.inj hsig
      obtain ⟨hsigdivision, hsiglp⟩ := Prod.mk.inj hsigrest
      exact ⟨hsigtier, hsigdivision.trans hdivision, hsiglp.trans hlp⟩
  · refine RankCall.recordRank_of_none ?_
    unfold RankCall.snap
    rcases hrank : c.rank with _ | rank
    · rfl
    · exact snap_of_unranked (hc rank hrank) c.today

/-- A rank of the fourth division. -/
def sampleRank (tier : String) (lp : ℤ) : Rank :=
  { tier := some (ascii tier), division := some (ascii "IV"), lp, label := ascii tier
    wins := none, losses := none }

/-- Two calls on one day, and one two days later. -/
theorem rank_history_two_days :
    let calls : List (RankCall ℕ) :=
      [(1, sampleRank "GOLD" 10), (1, sampleRank "GOLD" 31), (3, sampleRank "GOLD" 31)].map
        fun c => ⟨ascii "p", c.1, some c.2, true⟩
    ((storedHistory (recordAll calls none) (ascii "p")).map (·.date)).Pairwise (· < ·) :=
  (rank_history none (ascii "p") rfl _ (by decide)).1

end Api

end TftAnalytics

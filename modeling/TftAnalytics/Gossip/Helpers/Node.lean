import TftAnalytics.Gossip.Model.Cluster
/-!
# Gossip — what ticks and merges do to one member

Helper layer. A tick treats each member by itself, a merge folds the
entries about a member into it and leaves the others alone, and the fold
over several entries does what no single one of them is too much for.
-/

namespace TftAnalytics

namespace Gossip

variable {now : Time} {g : GossipNode} {a b : GoString} {cur inc m m' : MemberState}

/-! ## Ticks -/

theorem tick_lookup (g : GossipNode) (now : Time) (a : GoString) :
    (g.tick now).members.lookup a = (g.members.lookup a).map (g.tickMember now a) :=
  List.dlookup_map₂ (f := g.tickMember now) a

/-- **A tick reports what is old enough**, and moves no heartbeat. -/
theorem ageMember_spec (now : Time) (m : MemberState) :
    (GossipNode.ageMember now m).heartbeatAt = m.heartbeatAt ∧
      (suspectAfter ≤ now - m.heartbeatAt → (GossipNode.ageMember now m).status ≠ .alive) ∧
      (deadAfter ≤ now - m.heartbeatAt → (GossipNode.ageMember now m).status = .dead) := by
  simp only [GossipNode.ageMember]
  split_ifs with hdead hsuspect
  · exact ⟨rfl, fun _ => by simp, fun _ => rfl⟩
  · refine ⟨rfl, fun _ => by simp, fun hage => ?_⟩
    exact absurd hage (not_le.mpr hsuspect.2.1)
  · rw [not_and, not_not] at hdead
    refine ⟨rfl, fun hage halive => ?_, hdead⟩
    by_cases hage' : deadAfter ≤ now - m.heartbeatAt
    · rw [hdead hage'] at halive
      cases halive
    · exact hsuspect ⟨hage, not_le.mp hage', halive⟩

/-- `onDead` is called for the members a tick finds dead, and none of them
is the node. -/
theorem mem_newlyDead : a ∈ g.newlyDead now ↔ a ≠ g.self ∧
    ∃ m ∈ g.members.lookup a, deadAfter ≤ now - m.heartbeatAt ∧ m.status ≠ .dead := by
  simp only [GossipNode.newlyDead, List.mem_map, List.mem_filter, decide_eq_true_eq]
  constructor
  · rintro ⟨⟨x, m⟩, ⟨hmem, hne, hage⟩, rfl⟩
    exact ⟨hne, m, AList.mem_lookup_iff.mpr hmem, hage⟩
  · rintro ⟨hne, m, hm, hage⟩
    exact ⟨⟨a, m⟩, ⟨AList.mem_lookup_iff.mp hm, hne, hage⟩, rfl⟩

/-- A member is dead behind a tick when it was dead, or is declared so. -/
theorem ageMember_dead : (GossipNode.ageMember now m).status = .dead ↔
    m.status = .dead ∨ deadAfter ≤ now - m.heartbeatAt := by
  simp only [GossipNode.ageMember]
  split_ifs with hdead hsuspect
  · simp [hdead.1]
  · simp [hsuspect.2.2, hsuspect.2.1]
  · rw [not_and, not_not] at hdead
    exact ⟨Or.inl, fun h => h.elim id hdead⟩

/-! ## Merges -/

/-- The entry about a member, known or not, that a merge makes. -/
def absorb (now : Time) (o : Option MemberState) (inc : MemberState) : Option MemberState :=
  some (o.elim (GossipNode.learned now inc) fun cur => GossipNode.refresh now cur inc)

@[simp] theorem mergeOne_self (now : Time) (g : GossipNode) (inc : MemberState) :
    (GossipNode.mergeOne now g inc).self = g.self := by
  unfold GossipNode.mergeOne
  split_ifs
  · rfl
  · rfl
  · cases g.members.lookup inc.addr <;> rfl

@[simp] theorem merge_self (g : GossipNode) (now : Time) (l : List MemberState) :
    (g.merge now l).self = g.self := by
  unfold GossipNode.merge
  induction l generalizing g with
  | nil => rfl
  | cons inc l ih => rw [List.foldl_cons, ih, mergeOne_self]

theorem mergeOne_lookup (hb : b ≠ g.self) :
    (GossipNode.mergeOne now g inc).members.lookup b
      = if inc.addr = b then absorb now (g.members.lookup b) inc else g.members.lookup b := by
  unfold GossipNode.mergeOne
  by_cases haddr : inc.addr = b
  · rw [if_pos haddr, if_neg (haddr ▸ hb), haddr]
    cases hl : g.members.lookup b with
    | none => exact AList.lookup_insert _
    | some cur => exact AList.lookup_insert _
  · rw [if_neg haddr]
    split_ifs
    · rfl
    · rfl
    · cases g.members.lookup inc.addr with
      | none => exact AList.lookup_insert_ne (Ne.symm haddr)
      | some cur => exact AList.lookup_insert_ne (Ne.symm haddr)

/-- **A merge folds into a member the entries about it.** -/
theorem merge_lookup (hb : b ≠ g.self) (l : List MemberState) :
    (g.merge now l).members.lookup b
      = (l.filter fun inc => inc.addr = b).foldl (absorb now) (g.members.lookup b) := by
  unfold GossipNode.merge
  induction l generalizing g with
  | nil => rfl
  | cons inc l ih =>
    rw [List.foldl_cons, ih (by rwa [mergeOne_self]), mergeOne_lookup hb, List.filter_cons]
    by_cases haddr : inc.addr = b <;> simp [haddr]

theorem foldl_absorb (now : Time) (cur : MemberState) (l : List MemberState) :
    l.foldl (absorb now) (some cur) = some (l.foldl (GossipNode.refresh now) cur) := by
  induction l generalizing cur with
  | nil => rfl
  | cons inc l ih => exact ih _

/-- A member that is known stays known. -/
theorem merge_lookup_of_mem (now : Time) (hb : b ≠ g.self) (hm : cur ∈ g.members.lookup b)
    (l : List MemberState) :
    (g.merge now l).members.lookup b
      = some ((l.filter fun inc => inc.addr = b).foldl (GossipNode.refresh now) cur) := by
  rw [merge_lookup hb, Option.mem_def.mp hm, foldl_absorb]

theorem mergeOne_lookup_self (now : Time) (g : GossipNode) (inc : MemberState) :
    (GossipNode.mergeOne now g inc).members.lookup g.self = g.members.lookup g.self := by
  unfold GossipNode.mergeOne
  split_ifs with haddr
  · rfl
  · rfl
  · have hne : g.self ≠ inc.addr := Ne.symm haddr
    rcases g.members.lookup inc.addr with - | cur
    · exact AList.lookup_insert_ne hne
    · exact AList.lookup_insert_ne hne

/-- **Of itself a node takes no news.** -/
theorem merge_lookup_self (g : GossipNode) (now : Time) (l : List MemberState) :
    (g.merge now l).members.lookup g.self = g.members.lookup g.self := by
  unfold GossipNode.merge
  induction l generalizing g with
  | nil => rfl
  | cons inc l ih =>
    have hrest := ih (GossipNode.mergeOne now g inc)
    rw [mergeOne_self, mergeOne_lookup_self] at hrest
    exact hrest

/-- The members a node starts with are fresh. -/
theorem new_fresh {self : GoString} {peers : List GoString} {now : Time}
    (h : m ∈ (GossipNode.new self peers now).members.lookup a) : m = GossipNode.fresh now a := by
  have hfold : ∀ (ps : List GoString) (ms : AList fun _ : GoString => MemberState),
      (∀ m ∈ ms.lookup a, m = GossipNode.fresh now a) →
      ∀ m ∈ (ps.foldl (fun ms p => ms.insert p (GossipNode.fresh now p)) ms).lookup a,
        m = GossipNode.fresh now a := by
    intro ps
    induction ps with
    | nil => exact fun _ h => h
    | cons p ps ih =>
      refine fun ms h => ih _ fun m hm => ?_
      by_cases hap : a = p
      · rw [hap, AList.lookup_insert] at hm
        rw [hap]
        exact (Option.some.inj hm).symm
      · rw [AList.lookup_insert_ne hap] at hm
        exact h m hm
  refine hfold _ _ (fun m hm => ?_) m h
  have hmem : ⟨a, m⟩ ∈ [(⟨self, GossipNode.fresh now self⟩ : Sigma fun _ => MemberState)] :=
    AList.mem_lookup_iff.mp hm
  obtain ⟨⟩ := List.mem_singleton.mp hmem
  rfl

/-- And so they are alive. -/
theorem new_alive {self : GoString} {peers : List GoString} {now : Time}
    (h : m ∈ (GossipNode.new self peers now).members.lookup a) : m.status = .alive := by
  rw [new_fresh h]
  rfl

/-- A node starts with itself. -/
theorem new_lookup_self (self : GoString) (peers : List GoString) (now : Time) :
    (GossipNode.new self peers now).members.lookup self = some (GossipNode.fresh now self) := by
  have hfold : ∀ (ps : List GoString) (ms : AList fun _ : GoString => MemberState),
      (∀ p ∈ ps, p ≠ self) →
      (ps.foldl (fun ms p => ms.insert p (GossipNode.fresh now p)) ms).lookup self
        = ms.lookup self := by
    intro ps
    induction ps with
    | nil => exact fun _ _ => rfl
    | cons p ps ih =>
      intro ms hps
      rw [List.foldl_cons, ih _ fun q hq => hps q (by simp [hq]),
        AList.lookup_insert_ne (Ne.symm (hps p (by simp)))]
  refine (hfold _ _ fun p hp => ?_).trans ?_
  · have := (List.mem_filter.mp hp).2
    simp only [decide_eq_true_eq] at this
    exact this.2
  · exact AList.mem_lookup_iff.mpr (List.mem_singleton_self _)

/-! ## One entry -/

/-- **What one entry does to a member**: nothing, when it is no news; a new
heartbeat and no new status, when a dead member is called alive at an
older incarnation; and a new heartbeat and life otherwise. -/
theorem refresh_cases (now : Time) (cur inc : MemberState) :
    (inc.status ≠ .alive ∧ inc.incarnation ≤ cur.incarnation ∧
      GossipNode.refresh now cur inc = cur) ∨
    (inc.status = .alive ∧ cur.status = .dead ∧ inc.incarnation < cur.incarnation ∧
      GossipNode.refresh now cur inc = { cur with heartbeatAt := now }) ∨
    (¬ (inc.status ≠ .alive ∧ inc.incarnation ≤ cur.incarnation) ∧
      ¬ (cur.status = .dead ∧ inc.incarnation < cur.incarnation) ∧
      (GossipNode.refresh now cur inc).heartbeatAt = now ∧
      (GossipNode.refresh now cur inc).status = .alive) := by
  unfold GossipNode.refresh
  split_ifs with hnewer hrevive halive hsus
  · refine Or.inr (Or.inr ⟨fun h => ?_, fun h => ?_, rfl, rfl⟩)
    · exact absurd hnewer (UInt64.not_lt.mpr h.2)
    · exact absurd h.2 (UInt64.lt_asymm hnewer)
  · refine Or.inr (Or.inr ⟨fun h => h.1 hrevive.2.1, fun h => ?_, rfl, rfl⟩)
    exact absurd h.2 (by simp [hrevive.1])
  · refine Or.inr (Or.inr ⟨fun h => h.1 halive, fun h => ?_, rfl, rfl⟩)
    rw [hsus] at h
    cases h.1
  -- alive and not newer: only an older incarnation leaves a dead member dead
  · by_cases hdead : cur.status = .dead
    · have hlt : inc.incarnation < cur.incarnation := by
        refine UInt64.lt_of_le_of_ne (UInt64.not_lt.mp hnewer) fun heq => ?_
        exact hrevive ⟨heq, halive, by simp [hdead]⟩
      exact Or.inr (Or.inl ⟨halive, hdead, hlt, rfl⟩)
    · refine Or.inr (Or.inr ⟨fun h => h.1 halive, fun h => hdead h.1, rfl, ?_⟩)
      cases hst : cur.status with
      | alive => rfl
      | suspected => exact absurd hst hsus
      | dead => exact absurd hst hdead
  · exact Or.inl ⟨halive, UInt64.not_lt.mp hnewer, rfl⟩

/-- A heartbeat that reads the clock goes on reading it. -/
theorem foldl_refresh_heartbeat (l : List MemberState) (h : cur.heartbeatAt = now) :
    (l.foldl (GossipNode.refresh now) cur).heartbeatAt = now := by
  refine List.foldlRecOn (motive := fun m : MemberState => m.heartbeatAt = now) l _ h
    fun m hm inc _ => ?_
  rcases refresh_cases now m inc with ⟨-, -, heq⟩ | ⟨-, -, -, heq⟩ | ⟨-, -, hnow, -⟩
  · rw [heq, hm]
  · rw [heq]
  · exact hnow

/-- A merge takes no life. -/
theorem foldl_refresh_alive (l : List MemberState) (h : cur.status = .alive) :
    (l.foldl (GossipNode.refresh now) cur).status = .alive := by
  refine List.foldlRecOn (motive := fun m : MemberState => m.status = .alive) l _ h
    fun m hm inc _ => ?_
  rcases refresh_cases now m inc with ⟨-, -, heq⟩ | ⟨-, hdead, -, -⟩ | ⟨-, -, -, halive⟩
  · rw [heq, hm]
  · exact absurd (hm.symm.trans hdead) (by decide)
  · exact halive

/-- **A merge leaves a member untouched just when every entry about it is
harmless.** -/
theorem foldl_refresh_untouched (l : List MemberState) (cur : MemberState) :
    ((l.foldl (GossipNode.refresh now) cur).heartbeatAt ≤ cur.heartbeatAt ∧
      ((l.foldl (GossipNode.refresh now) cur).status = .alive → cur.status = .alive)) ↔
    ∀ inc ∈ l, Harmless now cur inc := by
  induction l generalizing cur with
  | nil => simp
  | cons inc l ih =>
    rw [List.foldl_cons, List.forall_mem_cons]
    rcases refresh_cases now cur inc with
      ⟨hst, hinc, heq⟩ | ⟨halive, hdead, hlt, heq⟩ | ⟨hnews, hlives, hnow, halive⟩
    · have hharmless : Harmless now cur inc := Or.inl ⟨hst, hinc⟩
      rw [heq, ih cur]
      exact (and_iff_right hharmless).symm
    · -- the heartbeat moves to `now`, and the member stays dead
      have hnow : (l.foldl (GossipNode.refresh now)
          { cur with heartbeatAt := now }).heartbeatAt = now := foldl_refresh_heartbeat l rfl
      have hrest := ih { cur with heartbeatAt := now }
      rw [hnow, and_iff_right le_rfl] at hrest
      rw [heq, hnow, hrest]
      have hhead : Harmless now cur inc ↔ now ≤ cur.heartbeatAt := by
        refine ⟨fun h => ?_, fun h => Or.inr ⟨h, Or.inr ⟨hdead, hlt⟩⟩⟩
        rcases h with ⟨hne, -⟩ | ⟨hle, -⟩
        · exact absurd halive hne
        · exact hle
      rw [hhead]
      refine and_congr_right fun hle => forall₂_congr fun x _ => ?_
      simp only [Harmless, le_refl, hle]
    · -- the heartbeat moves to `now`, and the member comes alive
      rw [foldl_refresh_heartbeat l hnow, foldl_refresh_alive l halive]
      constructor
      · rintro ⟨hle, hcur⟩
        exact ⟨Or.inr ⟨hle, Or.inl (hcur rfl)⟩, fun x _ => Or.inr ⟨hle, Or.inl (hcur rfl)⟩⟩
      · rintro ⟨hhead, -⟩
        rcases hhead with hinert | ⟨hle, hcur | hdead⟩
        · exact absurd hinert hnews
        · exact ⟨hle, fun _ => hcur⟩
        · exact absurd hdead hlives

theorem mergeOne_dead (hm' : m' ∈ (GossipNode.mergeOne now g inc).members.lookup a)
    (hdead : m'.status = .dead) : ∃ m ∈ g.members.lookup a, m.status = .dead := by
  unfold GossipNode.mergeOne at hm'
  split_ifs at hm'
  · exact ⟨m', hm', hdead⟩
  · exact ⟨m', hm', hdead⟩
  · cases hl : g.members.lookup inc.addr with
    | none =>
      rw [hl] at hm'
      by_cases ha : a = inc.addr
      · rw [ha, AList.lookup_insert] at hm'
        obtain rfl := Option.some.inj hm'
        cases hdead
      · rw [AList.lookup_insert_ne ha] at hm'
        exact ⟨m', hm', hdead⟩
    | some cur =>
      rw [hl] at hm'
      by_cases ha : a = inc.addr
      · rw [ha, AList.lookup_insert] at hm'
        obtain rfl := Option.some.inj hm'
        refine ⟨cur, ha ▸ hl, ?_⟩
        -- a refresh leaves the status, or makes it alive
        rcases refresh_cases now cur inc with ⟨-, -, heq⟩ | ⟨-, hcur, -, -⟩ | ⟨-, -, -, halive⟩
        · rwa [heq] at hdead
        · exact hcur
        · rw [halive] at hdead
          cases hdead
      · rw [AList.lookup_insert_ne ha] at hm'
        exact ⟨m', hm', hdead⟩

/-- **A merge declares nobody dead.** -/
theorem merge_dead {l : List MemberState} (hm' : m' ∈ (g.merge now l).members.lookup a)
    (hdead : m'.status = .dead) : ∃ m ∈ g.members.lookup a, m.status = .dead := by
  unfold GossipNode.merge at hm'
  induction l generalizing g with
  | nil => exact ⟨m', hm', hdead⟩
  | cons inc l ih =>
    obtain ⟨m₁, hm₁, hdead₁⟩ := ih hm'
    exact mergeOne_dead hm₁ hdead₁

theorem untouched_merge (hb : b ≠ g.self) (l : List MemberState) :
    Untouched b g (g.merge now l) ↔
      ∀ cur ∈ g.members.lookup b, ∀ inc ∈ l, inc.addr = b → Harmless now cur inc := by
  refine forall₂_congr fun cur hcur => ?_
  simp only [merge_lookup_of_mem now hb hcur, Option.mem_def, Option.some.injEq, forall_eq']
  rw [foldl_refresh_untouched]
  simp [List.mem_filter]

end Gossip

end TftAnalytics

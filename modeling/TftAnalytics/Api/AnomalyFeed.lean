import TftAnalytics.Api.Model.Feed
import TftAnalytics.Common.Newest
import Mathlib.Data.List.Infix
/-!
# API — the anomaly feed and its topic

While one stream lasts its offsets ascend, and the feed holds the newest
alerts. A new stream starts over at the oldest record that the broker
retains, and the feed is not emptied: it goes on to mirror the topic
exactly as long as no alert is delivered over a new stream that is not
above all those of the streams before.
-/

namespace TftAnalytics

namespace Api

open Broker (Sent Subscription StreamEvent)

variable {J : Type} {loads : Bytes → Loaded J}

/-! ## A stream -/

/-- The offsets sent over a stream ascend. -/
structure Ascending (s : Subscription) : Prop where
  increasing : (s.sent.map (·.offset)).Pairwise (· < ·)
  below : ∀ m ∈ s.sent, m.offset < s.offset

theorem ascending_start (p : Broker.Partition) (offset : ℤ) :
    Ascending (Subscription.start p offset) where
  increasing := List.Pairwise.nil
  below := fun _ h => absurd h List.not_mem_nil

/-- What a step of the broker does to a stream: the offset may move on, or
its record is sent. -/
theorem Ascending.step {s : Subscription} (h : Ascending s) (ev : StreamEvent) :
    Ascending (s.step ev) ∧ s.sent <+: (s.step ev).sent := by
  have hstay : ∀ s' : Subscription, s'.sent = s.sent → s.offset ≤ s'.offset →
      Ascending s' ∧ s.sent <+: s'.sent := by
    intro s' hsent hoffset
    refine ⟨⟨hsent ▸ h.increasing, fun m hm => ?_⟩, hsent ▸ List.prefix_refl _⟩
    rw [hsent] at hm
    exact (h.below m hm).trans_le hoffset
  cases ev with
  | append payload => exact hstay _ rfl le_rfl
  | close => exact hstay _ rfl le_rfl
  | advance =>
    show Ascending s.advance ∧ s.sent <+: s.advance.sent
    unfold Subscription.advance
    split
    · refine hstay _ rfl ?_
      show s.offset ≤ if _ then _ else _
      split_ifs <;> omega
    · exact hstay _ rfl le_rfl
    · exact hstay _ rfl le_rfl
    · split <;> exact hstay _ rfl le_rfl
    · refine ⟨⟨?_, fun m hm => ?_⟩, List.prefix_append _ _⟩
      · rw [List.map_append, List.pairwise_append]
        refine ⟨h.increasing, List.pairwise_singleton _ _, fun a ha b hb => ?_⟩
        obtain ⟨m, hm, rfl⟩ := List.mem_map.mp ha
        rw [List.map_singleton, List.mem_singleton] at hb
        rw [hb]
        exact h.below m hm
      · show m.offset < s.offset + 1
        rcases List.mem_append.mp hm with hm | hm
        · have hlt := h.below m hm
          omega
        · rw [List.mem_singleton.mp hm]
          show s.offset < s.offset + 1
          omega
    · exact hstay _ rfl le_rfl

/-! ## The thread -/

/-- The alert in a message, where its payload decodes. -/
def alertOf (loads : Bytes → Loaded J) (m : Sent) : Option (Held J) :=
  match loads m.payload with
  | .value alert => some ⟨m.offset, alert⟩
  | _ => none

/-- **The feed mirrors the topic**: it holds the alerts with the highest
offsets of those delivered, 500 at most, the newest first and none
twice. -/
def Mirrors (loads : Bytes → Loaded J) (s : FeedThread J) : Prop :=
  Newest feedLength (·.offset) (s.delivered.filterMap (alertOf loads)) s.anomalies

/-- **The next message is a replay**: an alert that does not lie above all
those delivered over the streams before. -/
def Replays (loads : Bytes → Loaded J) (s : FeedThread J) : Prop :=
  ∃ m, s.stream.sent[s.taken]? = some m ∧ ∃ a, alertOf loads m = some a ∧
    ∃ b ∈ s.earlier.filterMap (alertOf loads), a.offset ≤ b.offset

/-- What holds of the thread in every run. -/
structure Sound (s : FeedThread J) : Prop where
  ascending : Ascending s.stream
  taken_le : s.taken ≤ s.stream.sent.length

theorem offset_of_alertOf {m : Sent} {a : Held J} (h : alertOf loads m = some a) :
    a.offset = m.offset := by
  unfold alertOf at h
  split at h
  · rw [← Option.some.inj h]
  · cases h

/-- The messages taken from a stream are below the next. -/
theorem Sound.offset_lt {s : FeedThread J} (h : Sound s) {m m' : Sent}
    (hm : s.stream.sent[s.taken]? = some m) (hm' : m' ∈ s.stream.sent.take s.taken) :
    m'.offset < m.offset := by
  obtain ⟨hlt, hget⟩ := List.getElem?_eq_some_iff.mp hm
  obtain ⟨i, hi, rfl⟩ := List.mem_take_iff_getElem.mp hm'
  have hpair := List.pairwise_iff_getElem.mp h.ascending.increasing i s.taken
    (by rw [List.length_map]; omega) (by rw [List.length_map]; omega) (by omega)
  rw [List.getElem_map, List.getElem_map, hget] at hpair
  exact hpair

theorem delivered_resubscribe (s : FeedThread J) : s.resubscribe.delivered = s.delivered := by
  show s.delivered ++ List.take 0 _ = s.delivered
  rw [List.take_zero, List.append_nil]

theorem delivered_taken {s : FeedThread J} {m : Sent} (hm : s.stream.sent[s.taken]? = some m) :
    ({ s with taken := s.taken + 1 } : FeedThread J).delivered = s.delivered ++ [m] := by
  show s.earlier ++ s.stream.sent.take (s.taken + 1) = _
  rw [List.take_add_one, hm, Option.toList_some, ← List.append_assoc]
  rfl

/-- **What a delivery does**: the message counts as delivered, and goes
into the feed where it is an alert. -/
theorem deliver_spec {s : FeedThread J} (h : Sound s) {m : Sent}
    (hm : s.stream.sent[s.taken]? = some m) :
    Sound (s.deliver loads) ∧ (s.deliver loads).delivered = s.delivered ++ [m] ∧
      (s.deliver loads).anomalies = (alertOf loads m).elim s.anomalies
        fun a => (a :: s.anomalies).take feedLength := by
  obtain ⟨hlt, -⟩ := List.getElem?_eq_some_iff.mp hm
  have hnext : Sound ({ s with taken := s.taken + 1 } : FeedThread J) := ⟨h.ascending, hlt⟩
  have hdelivered := delivered_taken hm
  unfold FeedThread.deliver alertOf
  rw [hm]
  dsimp only
  cases loads m.payload with
  | value alert => exact ⟨⟨h.ascending, hlt⟩, hdelivered, rfl⟩
  | jsonDecodeError => exact ⟨hnext, hdelivered, rfl⟩
  | exception =>
    -- the exception ends the stream, and the next one starts over
    refine ⟨⟨ascending_start _ _, Nat.zero_le _⟩, ?_, rfl⟩
    rw [delivered_resubscribe]
    exact hdelivered

theorem deliver_of_none {s : FeedThread J} (hm : s.stream.sent[s.taken]? = none) :
    s.deliver loads = s := by
  unfold FeedThread.deliver
  rw [hm]

theorem Sound.step {s : FeedThread J} (h : Sound s) (ev : FeedEvent) :
    Sound (s.step loads ev) := by
  cases ev with
  | broker ev =>
    obtain ⟨hasc, hpre⟩ := h.ascending.step ev
    exact ⟨hasc, h.taken_le.trans hpre.length_le⟩
  | fail => exact ⟨ascending_start _ _, Nat.zero_le _⟩
  | deliver =>
    cases hm : s.stream.sent[s.taken]? with
    | none =>
      show Sound (s.deliver loads)
      rw [deliver_of_none hm]
      exact h
    | some m => exact (deliver_spec h hm).1

theorem sound_run (loads : Bytes → Loaded J) (p : Broker.Partition) (evs : List FeedEvent) :
    Sound (FeedThread.run loads p evs) := by
  induction evs using List.reverseRecOn with
  | nil => exact ⟨ascending_start _ _, Nat.zero_le _⟩
  | append_singleton evs ev ih =>
    unfold FeedThread.run at ih ⊢
    rw [List.foldl_append]
    exact ih.step ev

/-- Whether the next message is a replay is decided by its alert. -/
theorem replays_iff {s : FeedThread J} {m : Sent} (hm : s.stream.sent[s.taken]? = some m) :
    Replays loads s ↔ ∃ a ∈ alertOf loads m,
      ∃ b ∈ s.earlier.filterMap (alertOf loads), a.offset ≤ b.offset := by
  constructor
  · rintro ⟨m', hm', hreplay⟩
    obtain rfl := Option.some.inj (hm.symm.trans hm')
    exact hreplay
  · exact fun hreplay => ⟨m, hm, hreplay⟩

/-- **One delivery.** -/
theorem mirrors_deliver {s : FeedThread J} (h : Sound s) (hs : Mirrors loads s) :
    Mirrors loads (s.deliver loads) ↔ ¬ Replays loads s := by
  cases hm : s.stream.sent[s.taken]? with
  | none =>
    rw [deliver_of_none hm]
    refine iff_of_true hs ?_
    rintro ⟨m, hm', -⟩
    rw [hm] at hm'
    cases hm'
  | some m =>
    obtain ⟨-, hdelivered, hanomalies⟩ := deliver_spec h hm
    rw [replays_iff hm]
    unfold Mirrors
    rw [hdelivered, hanomalies, List.filterMap_append]
    cases ha : alertOf loads m with
    | none =>
      have hnone : [m].filterMap (alertOf loads) = [] := List.filterMap_cons_none ha
      rw [hnone, List.append_nil]
      refine iff_of_true hs ?_
      rintro ⟨_, ha', -⟩
      cases ha'
    | some a =>
      have hlast : [m].filterMap (alertOf loads) = [a] := List.filterMap_cons_some ha
      rw [hlast]
      constructor
      · rintro hafter ⟨a', ha', b, hb, hle⟩
        obtain rfl := Option.some.inj ha'
        refine hs.not_push (by decide) ?_ hle hafter
        unfold FeedThread.delivered
        rw [List.filterMap_append]
        exact List.mem_append_left _ hb
      · intro hfresh
        refine hs.push (by decide) fun b hb => ?_
        unfold FeedThread.delivered at hb
        rw [List.filterMap_append] at hb
        rcases List.mem_append.mp hb with hb | hb
        · -- over an earlier stream, and not a replay
          by_contra hle
          exact hfresh ⟨a, rfl, b, hb, not_lt.mp hle⟩
        · -- over the same stream
          obtain ⟨m', hm', hb'⟩ := List.mem_filterMap.mp hb
          rw [offset_of_alertOf hb', offset_of_alertOf ha]
          exact h.offset_lt hm hm'

/-- **One step**: a feed that mirrors the topic goes on to, but for the
delivery of a replay. -/
theorem mirrors_step {s : FeedThread J} (h : Sound s) (hs : Mirrors loads s) (ev : FeedEvent) :
    Mirrors loads (s.step loads ev) ↔ ¬ (ev = .deliver ∧ Replays loads s) := by
  cases ev with
  | broker ev =>
    refine iff_of_true ?_ fun hev => FeedEvent.noConfusion hev.1
    obtain ⟨-, ext, hext⟩ := h.ascending.step ev
    have hdelivered : (s.step loads (.broker ev)).delivered = s.delivered := by
      show s.earlier ++ (s.stream.step ev).sent.take s.taken = _
      rw [← hext, List.take_append_of_le_length h.taken_le]
      rfl
    unfold Mirrors
    rw [hdelivered]
    exact hs
  | fail =>
    refine iff_of_true ?_ fun hev => FeedEvent.noConfusion hev.1
    unfold Mirrors
    show Newest _ _ (s.resubscribe.delivered.filterMap _) s.anomalies
    rw [delivered_resubscribe]
    exact hs
  | deliver => exact (mirrors_deliver h hs).trans (not_congr (and_iff_right rfl).symm)

theorem run_concat (loads : Bytes → Loaded J) (p : Broker.Partition) (evs : List FeedEvent)
    (ev : FeedEvent) : FeedThread.run loads p (evs ++ [ev])
      = (FeedThread.run loads p evs).step loads ev :=
  List.foldl_append ..

/-- **A run** that delivers no replay. -/
theorem mirrors_run {p : Broker.Partition} {evs : List FeedEvent}
    (h : ∀ pre, pre ++ [.deliver] <+: evs → ¬ Replays loads (FeedThread.run loads p pre)) :
    Mirrors loads (FeedThread.run loads p evs) := by
  induction evs using List.reverseRecOn with
  | nil => exact Newest.nil
  | append_singleton evs ev ih =>
    have hbefore := ih fun pre hpre => h pre (hpre.trans (List.prefix_append _ _))
    rw [run_concat, mirrors_step (sound_run loads p evs) hbefore]
    rintro ⟨rfl, hreplays⟩
    exact h evs (List.prefix_refl _) hreplays

/-- Nothing was delivered over an earlier stream while the first lasts. -/
theorem earlier_of_unbroken (hloads : ∀ payload, loads payload ≠ .exception)
    (p : Broker.Partition) {evs : List FeedEvent} (hfail : .fail ∉ evs) :
    (FeedThread.run loads p evs).earlier = [] := by
  induction evs using List.reverseRecOn with
  | nil => rfl
  | append_singleton evs ev ih =>
    have ih := ih fun h => hfail (List.mem_append_left _ h)
    rw [run_concat]
    cases ev with
    | broker ev => exact ih
    | fail => exact absurd (List.mem_append_right _ (List.mem_singleton_self _)) hfail
    | deliver =>
      show ((FeedThread.run loads p evs).deliver loads).earlier = []
      unfold FeedThread.deliver
      split
      · exact ih
      · rename_i m hm
        cases hload : loads m.payload with
        | value alert => exact ih
        | jsonDecodeError => exact ih
        | exception => exact absurd hload (hloads _)

/-- **An unbroken stream is mirrored**, where decoding raises nothing else
than a `JSONDecodeError`. -/
theorem mirrors_of_unbroken (hloads : ∀ payload, loads payload ≠ .exception)
    (p : Broker.Partition) {evs : List FeedEvent} (hfail : .fail ∉ evs) :
    Mirrors loads (FeedThread.run loads p evs) := by
  refine mirrors_run ?_
  rintro pre hpre ⟨m, -, a, -, b, hb, -⟩
  have hnil : (FeedThread.run loads p pre).earlier = [] :=
    earlier_of_unbroken hloads p fun h => hfail (hpre.subset (List.mem_append_left _ h))
  rw [hnil] at hb
  exact absurd hb List.not_mem_nil

/-- **The feed mirrors its topic** in every state of a run, with appends
and trims at the broker and errors of the stream at any point, if and only
if no step of the run delivers a replay. -/
theorem feed_mirrors_iff (loads : Bytes → Loaded J) (p : Broker.Partition)
    (evs : List FeedEvent) :
    (∀ pre, pre <+: evs → Mirrors loads (FeedThread.run loads p pre)) ↔
      ∀ pre, pre ++ [.deliver] <+: evs → ¬ Replays loads (FeedThread.run loads p pre) := by
  constructor
  · intro hall pre hpre hreplays
    have hbefore := hall pre ((List.prefix_append _ _).trans hpre)
    have hafter := hall _ hpre
    rw [run_concat, mirrors_step (sound_run loads p pre) hbefore] at hafter
    exact hafter ⟨rfl, hreplays⟩
  · intro hall pre hpre
    exact mirrors_run fun pre' hpre' => hall pre' (hpre'.trans hpre)

/-! ## One error -/

/-- A topic of one alert. -/
def oneAlert : Broker.Partition := ((Broker.openPartition [] 100).append (ascii "\x7b\x7d")).1

/-- Of payloads, this one decodes, to an empty object. -/
def loadsEmpty (payload : Bytes) : Loaded Unit :=
  if payload = ascii "\x7b\x7d" then .value () else .jsonDecodeError

/-- What the broker does to send the next message. -/
def sending : List FeedEvent :=
  [.broker .advance, .broker .advance, .broker .advance, .broker .advance]

/-- **The alert is in the feed twice** after one error of the stream. -/
theorem reconnect_doubles : ¬ ∀ (J : Type) (loads : Bytes → Loaded J) (p : Broker.Partition)
    (evs : List FeedEvent), Mirrors loads (FeedThread.run loads p evs) := by
  intro h
  have hfeed : (FeedThread.run loadsEmpty oneAlert
      (sending ++ [.deliver, .fail] ++ sending ++ [.deliver])).anomalies.map (·.offset)
        = [0, 0] := by
    decide
  have hdescending : ((FeedThread.run loadsEmpty oneAlert
      (sending ++ [.deliver, .fail] ++ sending ++ [.deliver])).anomalies.map
        (·.offset)).Pairwise (· > ·) :=
    List.pairwise_map.mpr (h Unit loadsEmpty oneAlert _).descending
  rw [hfeed] at hdescending
  simp at hdescending

end Api

end TftAnalytics

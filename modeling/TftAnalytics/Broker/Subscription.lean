import TftAnalytics.Broker.Sequence
import TftAnalytics.Broker.Model.Subscribe
/-!
# Broker — what a subscriber is sent

A trim may fall between any two looks of the loop at its partition, also
between the one that finds a record and the one that reads it. What holds
at every step is that the offset has passed over nothing that the
partition still retains, and that a payload in hand is the one appended at
the offset.
-/

namespace TftAnalytics

namespace Broker

/-- The offset a subscriber is due next: the one behind the last message,
or the one it asked for. -/
def due (start : ℤ) (sent : List Sent) : ℤ :=
  match sent.getLast? with
  | none => max start 0
  | some m => m.offset + 1

@[simp] theorem due_concat (start : ℤ) (sent : List Sent) (m : Sent) :
    due start (sent ++ [m]) = m.offset + 1 := by
  unfold due
  rw [List.getLast?_concat]

namespace Subscription

/-- **What holds of a subscription** from `start` on, when the payloads
`hist` have been appended. -/
structure Good (start : ℤ) (hist : List Bytes) (s : Subscription) : Prop where
  represents : ∃ base, Represents s.partition hist base []
  due_le : due start s.sent ≤ s.offset
  skipped : ∀ o, due start s.sent ≤ o → o < s.offset → o < s.partition.baseOffset
  in_hand : ∀ payload, s.pc = .send payload → hist[s.offset.toNat]? = some payload
  sent : ∀ m ∈ s.sent, max start 0 ≤ m.offset ∧ m.offset < due start s.sent ∧
    hist[m.offset.toNat]? = some m.payload
  increasing : (s.sent.map (·.offset)).Pairwise (· < ·)
  gaps : ∀ pre m post, s.sent = pre ++ m :: post → ∀ o, due start pre ≤ o → o < m.offset →
    o < m.baseOffset

variable {start : ℤ} {hist : List Bytes} {s : Subscription}

theorem good_start {p : Partition} {base : ℕ} (h : Represents p hist base []) (offset : ℤ) :
    (Subscription.start p offset).Good offset hist where
  represents := ⟨base, h⟩
  due_le := by
    show max offset 0 ≤ if offset < 0 then 0 else offset
    split_ifs <;> omega
  skipped := by
    intro o hle hlt
    have hlt : o < if offset < 0 then 0 else offset := hlt
    have hle : max offset 0 ≤ o := hle
    split_ifs at hlt <;> omega
  in_hand := by
    intro payload h
    cases h
  sent := by
    intro m hm
    cases hm
  increasing := List.Pairwise.nil
  gaps := by
    intro pre m post h
    exact absurd h (by simp [Subscription.start])

/-- What is due is never below what was asked for. -/
theorem Good.max_le_due (h : s.Good start hist) : max start 0 ≤ due start s.sent := by
  unfold due
  cases hl : s.sent.getLast? with
  | none => exact le_rfl
  | some m =>
    have := (h.sent m (List.mem_of_getLast? hl)).1
    show _ ≤ m.offset + 1
    omega

/-- A step that sends nothing: the offset moves over trimmed records only,
and what comes in hand is a record of the partition. -/
theorem Good.move (h : s.Good start hist) {offset : ℤ} {pc : Pc} (hle : s.offset ≤ offset)
    (hskip : ∀ o, s.offset ≤ o → o < offset → o < s.partition.baseOffset)
    (hhand : ∀ payload, pc = .send payload → hist[offset.toNat]? = some payload) :
    ({ s with offset := offset, pc := pc } : Subscription).Good start hist where
  represents := h.represents
  due_le := h.due_le.trans hle
  skipped := by
    intro o hdue hlt
    rcases lt_or_ge o s.offset with ho | ho
    · exact h.skipped o hdue ho
    · exact hskip o ho hlt
  in_hand := hhand
  sent := h.sent
  increasing := h.increasing
  gaps := h.gaps

/-- A step that leaves the offset. -/
theorem Good.stay (h : s.Good start hist) {pc : Pc}
    (hhand : ∀ payload, pc = .send payload → hist[s.offset.toNat]? = some payload) :
    ({ s with pc := pc } : Subscription).Good start hist :=
  h.move le_rfl (fun o hle hlt => by omega) hhand

/-- **What is in hand is sent**: it goes behind all that was sent, and what
lies between was skipped while the base was above it. -/
theorem Good.send (h : s.Good start hist) {x : Bytes} (hpc : s.pc = .send x) :
    ({ s with
      offset := s.offset + 1
      pc := .base
      sent := s.sent ++ [⟨s.offset, x, s.partition.baseOffset⟩] } : Subscription).Good
      start hist where
  represents := h.represents
  due_le := by rw [due_concat]
  skipped := by
    intro o hle hlt
    rw [due_concat] at hle
    have hlt : o < s.offset + 1 := hlt
    have hle : s.offset + 1 ≤ o := hle
    omega
  in_hand := by
    intro payload h
    cases h
  sent := by
    intro m hm
    rw [due_concat]
    show _ ∧ m.offset < s.offset + 1 ∧ _
    rcases List.mem_append.mp hm with hm | hm
    · obtain ⟨hge, hlt, hpay⟩ := h.sent m hm
      have hdue := h.due_le
      exact ⟨hge, by omega, hpay⟩
    · obtain rfl := List.mem_singleton.mp hm
      exact ⟨h.max_le_due.trans h.due_le, by show s.offset < _; omega, h.in_hand x hpc⟩
  increasing := by
    rw [List.map_append, List.pairwise_append]
    refine ⟨h.increasing, List.pairwise_singleton _ _, ?_⟩
    intro a ha b hb
    obtain ⟨m, hm, rfl⟩ := List.mem_map.mp ha
    obtain rfl : b = s.offset := by simpa using hb
    have hlt := (h.sent m hm).2.1
    have hdue := h.due_le
    omega
  gaps := by
    intro pre m post hsplit o hle hlt
    -- the gap is in front of the message just sent, or of an earlier one
    rcases List.eq_nil_or_concat post with rfl | ⟨post', last, rfl⟩
    · obtain ⟨rfl, hlast⟩ := List.append_inj' hsplit rfl
      obtain rfl := (List.cons.inj hlast).1
      exact h.skipped o hle hlt
    · rw [List.concat_eq_append, ← List.cons_append, ← List.append_assoc] at hsplit
      obtain ⟨hs, -⟩ := List.append_inj' hsplit rfl
      exact h.gaps pre m post' hs o hle hlt

/-- **One step of the loop.** -/
theorem Good.advance (h : s.Good start hist) : s.advance.Good start hist := by
  obtain ⟨base, hrep⟩ := h.represents
  unfold Subscription.advance
  split
  · -- the fast-forward passes over trimmed records only
    refine h.move ?_ ?_ ?_
    · split_ifs <;> omega
    · intro o hle hlt
      split_ifs at hlt <;> omega
    · intro payload hpc
      cases hpc
  · refine h.stay fun payload hpc => ?_
    split_ifs at hpc
  · exact h.stay fun payload hpc => by cases hpc
  · split
    · exact h.stay fun payload hpc => by cases hpc
    · rename_i x hread
      refine h.stay fun payload hpc => ?_
      rw [Pc.send.injEq] at hpc
      subst hpc
      rw [hrep.readAt] at hread
      split_ifs at hread
      exact hread
  · rename_i x hpc
    exact h.send hpc
  · exact h

/-- **An append**, with the trim that follows it. -/
theorem Good.append (h : s.Good start hist) {x : Bytes} (hx : Fits x) :
    (s.step (.append x)).Good start (hist ++ [x]) := by
  obtain ⟨base, hrep⟩ := h.represents
  obtain ⟨-, base', hle, hrep', -⟩ := hrep.append hx
  -- what was appended before stands where it stood
  have hold : ∀ {o : ℤ} {y : Bytes}, hist[o.toNat]? = some y →
      (hist ++ [x])[o.toNat]? = some y := by
    intro o y hy
    obtain ⟨hlt, -⟩ := List.getElem?_eq_some_iff.mp hy
    rw [List.getElem?_append_left hlt, hy]
  have hbase : s.partition.baseOffset ≤ (s.partition.append x).1.baseOffset := by
    rw [hrep.baseOffset_eq, hrep'.baseOffset_eq]
    exact_mod_cast hle
  exact
    { represents := ⟨base', hrep'⟩
      due_le := h.due_le
      skipped := fun o hdue hlt => (h.skipped o hdue hlt).trans_le hbase
      in_hand := fun payload hpc => hold (h.in_hand payload hpc)
      sent := fun m hm => ⟨(h.sent m hm).1, (h.sent m hm).2.1, hold (h.sent m hm).2.2⟩
      increasing := h.increasing
      gaps := h.gaps }

/-- **A whole run.** -/
theorem Good.run (h : s.Good start hist) (evs : List StreamEvent)
    (hfits : ∀ x ∈ appendedBy evs, Fits x) :
    (s.run evs).Good start (hist ++ appendedBy evs) := by
  induction evs generalizing s hist with
  | nil => simpa [appendedBy, Subscription.run] using h
  | cons ev evs ih =>
    cases ev with
    | append x =>
      obtain ⟨hx, hfits⟩ := List.forall_mem_cons.mp hfits
      have hrun := ih (h.append hx) hfits
      rw [List.append_assoc] at hrun
      exact hrun
    | advance => exact ih h.advance hfits
    | close =>
      refine ih (h.stay fun payload hpc => ?_) hfits
      cases hpc

end Subscription

/-- **A subscription is safe.** On a partition with any history of appends
and reopenings, subscribed to from any offset, and under any interleaving
with further appends and their trims: the offsets sent are strictly
increasing and not below the one asked for, each message carries what was
appended at its offset, and each offset passed over was below the base
when the message behind it was sent. Payloads fit the length field of a
record, and offsets are `int64`s. -/
theorem subscription_safe (maxRecords : ℤ) (ops : List Op) (start : ℤ) (evs : List StreamEvent)
    (hfits : ∀ x ∈ appended ops ++ appendedBy evs, Fits x)
    (hlen : (appended ops ++ appendedBy evs).length ≤ 2 ^ 63) :
    let sent := ((Subscription.start (run maxRecords ops) start).run evs).sent
    (sent.map (·.offset)).Pairwise (· < ·) ∧
      (∀ m ∈ sent, max start 0 ≤ m.offset ∧
        (appended ops ++ appendedBy evs)[m.offset.toNat]? = some m.payload) ∧
      ∀ pre m post, sent = pre ++ m :: post → ∀ o, due start pre ≤ o → o < m.offset →
        o < m.baseOffset := by
  rw [List.length_append] at hlen
  obtain ⟨base, hrep⟩ := represents_run maxRecords
    (fun x hx => hfits x (List.mem_append_left _ hx)) (by omega)
  have hgood := (Subscription.good_start hrep start).run evs
    fun x hx => hfits x (List.mem_append_right _ hx)
  exact ⟨hgood.increasing, fun m hm => ⟨(hgood.sent m hm).1, (hgood.sent m hm).2.2⟩, hgood.gaps⟩

/-- A trim takes the record the loop has decided to read. -/
def trimmedStream : List StreamEvent :=
  [.advance, .advance, .append [2], .append [3], .advance, .advance, .advance, .advance, .advance]

theorem subscription_safe_trimmed :
    ((Subscription.start (run 2 [.append [1]]) (-1)).run trimmedStream).sent = [⟨1, [2], 1⟩] ∧
      ∀ o : ℤ, 0 ≤ o → o < 1 → o < 1 := by
  have hsent : ((Subscription.start (run 2 [.append [1]]) (-1)).run trimmedStream).sent
      = [⟨1, [2], 1⟩] := by decide
  obtain ⟨-, -, hgaps⟩ := subscription_safe 2 [.append [1]] (-1) trimmedStream (by decide)
    (by decide)
  exact ⟨hsent, hgaps [] ⟨1, [2], 1⟩ [] hsent⟩

end Broker

end TftAnalytics

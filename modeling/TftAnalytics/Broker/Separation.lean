import TftAnalytics.Broker.Helpers.StorageRun
import TftAnalytics.Broker.Keys
/-!
# Broker — streams and their logs

Two streams have partitions and files of their own exactly when their keys
are still different after `sanitize`. Streams whose parts differ may fail
this twice: the parts can make one key, the separator being a byte they may
have themselves, and two keys can make one file name. Where they do, what
is published to one stream comes out of the other.
-/

namespace TftAnalytics

namespace Broker

/-! ## Streams kept apart -/

/-- The operation publishes to a stream, up to what is filled in. -/
def StorageOp.PublishesTo (stream : Stream) : StorageOp → Prop
  | .publish stream' _ _ => stream'.filled = stream.filled
  | .subscribe _ | .restart _ => False

instance (stream : Stream) : DecidablePred (StorageOp.PublishesTo stream)
  | .publish _ _ _ => inferInstanceAs (Decidable (_ = _))
  | .subscribe _ | .restart _ => isFalse id

/-- **Nothing published to one stream reaches the other**: in no run of
publishes, subscribers and restarts does it matter to what the other
stream serves. -/
def Unheard (s₁ s₂ : Stream) : Prop :=
  ∀ maxRecords ops o, (Storage.run maxRecords ops).readAt s₂.key o
    = (Storage.run maxRecords (ops.filter fun op => ¬ op.PublishesTo s₁)).readAt s₂.key o

/-- **Two streams are kept apart**: their partitions, their log files, and
what their subscribers are sent. -/
structure Separated (s₁ s₂ : Stream) : Prop where
  keys : s₁.key ≠ s₂.key
  files : logName s₁.key ≠ logName s₂.key
  unheard : Unheard s₁ s₂
  unheard' : Unheard s₂ s₁

variable {s₁ s₂ : Stream}

theorem logName_inj {key key' : GoString} :
    logName key = logName key' ↔ sanitize key = sanitize key' :=
  List.append_left_inj (ascii ".log")

/-- A key is that of the parts with what is empty filled in. -/
theorem key_filled (stream : Stream) : stream.filled.key = stream.key := by
  simp only [Stream.key, Stream.filled, partitionKey, orAll_orAll]

theorem key_of_publishesTo {stream stream' : Stream} (h : stream'.filled = stream.filled) :
    stream'.key = stream.key := by
  rw [← key_filled stream', h, key_filled]

/-! ## Different files -/

/-- **Along every run**, brokers with and without the publishes to a stream
agree on every file that is not its own. -/
theorem agree_filter {path : GoString} (h : path ≠ logName s₁.key) (maxRecords : ℤ)
    (ops : List StorageOp) :
    (Storage.run maxRecords ops).Agree
      (Storage.run maxRecords (ops.filter fun op => ¬ op.PublishesTo s₁)) path := by
  induction ops using List.reverseRecOn with
  | nil => exact .refl ..
  | append_singleton ops op ih =>
    have hnamed := Storage.named_run maxRecords ops
    have hnamed' := Storage.named_run maxRecords (ops.filter fun op => ¬ op.PublishesTo s₁)
    have hrun : Storage.run maxRecords (ops ++ [op]) = (Storage.run maxRecords ops).step op := by
      simp [Storage.run, List.foldl_append]
    rw [hrun, List.filter_append]
    -- a publish to the first stream goes to another file, any other operation is in both runs
    by_cases hop : op.PublishesTo s₁
    · rw [List.filter_cons_of_neg (by simpa using hop), List.filter_nil, List.append_nil]
      rcases op with ⟨stream, stop, payload⟩ | stream | cap
      · rw [← key_of_publishesTo hop] at h
        exact (Storage.agree_publish hnamed h stop payload).trans ih
      · exact hop.elim
      · exact hop.elim
    · rw [List.filter_cons_of_pos (by simpa using hop), List.filter_nil]
      have hrun' : Storage.run maxRecords
            ((ops.filter fun op => ¬ op.PublishesTo s₁) ++ [op])
          = (Storage.run maxRecords (ops.filter fun op => ¬ op.PublishesTo s₁)).step op := by
        simp [Storage.run, List.foldl_append]
      rw [hrun']
      exact ih.step hnamed hnamed' op

theorem unheard_of_ne (h : sanitize s₁.key ≠ sanitize s₂.key) : Unheard s₁ s₂ := by
  intro maxRecords ops o
  have hpath : logName s₂.key ≠ logName s₁.key := fun heq => h (logName_inj.mp heq).symm
  exact (agree_filter hpath maxRecords ops).readAt (Storage.named_run maxRecords ops) o

/-! ## One file -/

/-- **Streams with one file hear each other**: a subscriber that comes to
the second reads what was published to the first. -/
theorem readAt_of_sanitize_eq (h : sanitize s₁.key = sanitize s₂.key) {x : Bytes} (hx : Fits x) :
    (Storage.run 0 [.publish s₁ none x]).readAt s₂.key 0 = some x := by
  have hnil : (Storage.new LogDir.empty 0).Serves s₁.key [] 0 := Storage.serves_nil rfl rfl
  obtain ⟨base, -, hserves, -, hbase⟩ := hnil.publish (Storage.named_new _ _) hx
  obtain rfl := hbase (.inl le_rfl)
  set s : Storage := Storage.run 0 [.publish s₁ none x] with hs
  change s.Serves s₁.key [x] 0 at hserves
  by_cases hkey : s₂.key = s₁.key
  · rw [hkey, hserves.readAt]
    rfl
  · -- the second partition is opened on the file of the first
    have hnamed : s.Named := Storage.named_run 0 _
    obtain ⟨p, hopen⟩ : ∃ p, s.partitions.lookup s₁.key = some p := ⟨_, AList.lookup_insert _⟩
    have hnone : s.partitions.lookup s₂.key = none := Storage.lookup_publish hkey none x
    have hstored := hserves.stored
    rw [(hnamed.getPartition s₁.key).1, Storage.getPartition_of_lookup hopen,
      logName_inj.mpr h] at hstored
    have hread := (hstored.openLog (by simp) s.maxRecords).readAt 0
    simp only [Storage.readAt, Storage.getPartition_of_lookup_none hnone]
    exact hread

/-! ## Main results -/

/-- **When streams are kept apart.** Two streams have partitions and files
of their own, and nothing published to one reaches a subscriber of the
other, if and only if their keys differ after `sanitize`; and where the
keys do not, what is published to the first does reach the other. -/
theorem separated_iff (s₁ s₂ : Stream) :
    (Separated s₁ s₂ ↔ sanitize s₁.key ≠ sanitize s₂.key) ∧
      (Unheard s₁ s₂ ↔ sanitize s₁.key ≠ sanitize s₂.key) := by
  refine ⟨⟨fun h heq => h.files (logName_inj.mpr heq), fun h => ?_⟩, ⟨fun h heq => ?_, ?_⟩⟩
  · exact ⟨fun heq => h (congrArg sanitize heq), fun heq => h (logName_inj.mp heq),
      unheard_of_ne h, unheard_of_ne (Ne.symm h)⟩
  · have hheard := readAt_of_sanitize_eq heq (x := []) (by decide)
    have hdropped := h 0 [.publish s₁ none []] 0
    rw [List.filter_cons_of_neg (by simp [StorageOp.PublishesTo]), List.filter_nil, hheard]
      at hdropped
    have hnil : (Storage.run 0 []).Serves s₂.key [] 0 := Storage.serves_nil rfl rfl
    rw [hnil.readAt] at hdropped
    cases hdropped
  · exact unheard_of_ne

/-- **The separator inside a topic or a region**: two streams make one
key. -/
theorem not_separated :
    (⟨ascii "x_a", ascii "b", ascii "c"⟩ : Stream).filled
        ≠ (⟨ascii "x", ascii "a_b", ascii "c"⟩ : Stream).filled ∧
      ¬ Separated ⟨ascii "x_a", ascii "b", ascii "c"⟩ ⟨ascii "x", ascii "a_b", ascii "c"⟩ :=
  ⟨by decide, fun h => h.keys (by decide)⟩

/-- **Parts that are safe keep streams apart**: where no part has a byte
that `sanitize` replaces, and no region or tier a separator. -/
theorem separated_of_safe (hdiffer : s₁.filled ≠ s₂.filled)
    (hsafe : ∀ s ∈ [s₁, s₂], (∀ c ∈ s.key, Safe c) ∧ underscore ∉ s.region ∧
      underscore ∉ s.tier) : Separated s₁ s₂ := by
  have hsame : ∀ s ∈ [s₁, s₂], sanitize s.key = s.key := by
    intro s hs
    unfold sanitize
    rw [List.map_congr_left fun c hc => if_pos ((hsafe s hs).1 c hc), List.map_id']
  have hsplit : ∀ s ∈ [s₁, s₂], splitKey s.key = (s.topic, orAll s.region, orAll s.tier) := by
    intro s hs
    exact splitKey_append s.topic (not_mem_orAll (hsafe s hs).2.1) (not_mem_orAll (hsafe s hs).2.2)
  refine (separated_iff s₁ s₂).1.mpr fun heq => hdiffer ?_
  rw [hsame s₁ (by simp), hsame s₂ (by simp)] at heq
  have hparts := (hsplit s₁ (by simp)).symm.trans ((congrArg splitKey heq).trans
    (hsplit s₂ (by simp)))
  simp only [Prod.mk.injEq] at hparts
  simp only [Stream.filled, hparts]

end Broker

end TftAnalytics

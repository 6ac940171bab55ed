import TftAnalytics.Metastore.Model.History
import TftAnalytics.Metastore.Helpers.Invariant
import Mathlib.Algebra.BigOperators.Group.List.Basic
/-!
# Metastore — the size of the memtable

`Put` adds to the size what an entry takes or what it takes more than the
one it replaces, so the size stays the sum over the entries held. A write
that returns `nil` has left it below the threshold or has emptied the
memtable.
-/

namespace TftAnalytics

namespace Metastore

/-- The length of a key and the encoded size of its entry. -/
def Codec.weight (c : Codec) (key : GoString) (entry : StatEntry) : ℤ := key.length + c.size entry

/-- **The exact size**: over the keys, what the key and the entry held for
it take. -/
def MemTable.exactSize (m : MemTable) (c : Codec) : ℤ :=
  (m.data.entries.map fun p => c.weight p.1 p.2).sum

/-- What an insertion adds to a sum over a map. -/
theorem sum_entries_insert {α β : Type} [DecidableEq α] (w : α → β → ℤ) (s : AList fun _ : α => β)
    (k : α) (v : β) :
    ((s.insert k v).entries.map fun p => w p.1 p.2).sum
      = (s.entries.map fun p => w p.1 p.2).sum + (w k v - (s.lookup k).elim 0 (w k)) := by
  rw [AList.entries_insert, List.map_cons, List.sum_cons]
  by_cases hk : k ∈ s.entries.keys
  · obtain ⟨old, l₁, l₂, -, hs, hrest⟩ := List.exists_of_kerase hk
    have hold : s.lookup k = some old := by
      rw [← Option.mem_def, AList.mem_lookup_iff, hs]
      simp
    rw [hrest, hs, hold]
    simp only [List.map_append, List.sum_append, List.map_cons, List.sum_cons, Option.elim_some]
    omega
  · have hnone : s.lookup k = none := AList.lookup_eq_none.mpr hk
    rw [List.kerase_of_notMem_keys hk, hnone, Option.elim_none]
    dsimp only
    omega

/-- **`Put` keeps the account.** -/
theorem MemTable.size_put {m : MemTable} {c : Codec} (h : m.size = m.exactSize c) (key : GoString)
    (entry : StatEntry) : (m.put c key entry).size = (m.put c key entry).exactSize c := by
  unfold MemTable.put exactSize
  rcases hl : m.data.lookup key with _ | existing <;> dsimp only
  · rw [sum_entries_insert c.weight, hl, h, exactSize, Option.elim_none, Codec.weight]
    omega
  · -- the key is there already, and only the entry changes
    rw [sum_entries_insert c.weight, hl, h, exactSize, Option.elim_some, Codec.weight,
      Codec.weight]
    omega

/-- The account over a sequence of puts. -/
theorem MemTable.size_foldl_put {m : MemTable} {c : Codec} (h : m.size = m.exactSize c)
    (puts : List (GoString × StatEntry)) :
    (puts.foldl (fun m p => m.put c p.1 p.2) m).size
      = (puts.foldl (fun m p => m.put c p.1 p.2) m).exactSize c := by
  induction puts generalizing m with
  | nil => exact h
  | cons p puts ih => exact ih (MemTable.size_put h p.1 p.2)

theorem size_replayWAL (c : Codec) (records : List WALEntry) :
    (replayWAL c records).size = (replayWAL c records).exactSize c := by
  unfold replayWAL
  refine List.foldlRecOn (motive := fun m : MemTable => m.size = m.exactSize c) records _ rfl
    fun m h r _ => ?_
  split
  · exact h
  · exact MemTable.size_put h _ _

/-! ## The tree -/

variable {env : Env} {io : FlushOutcome} {s : Store}

/-- A tree of the same memtable and the same threshold. -/
structure Store.SameMem (s s' : Store) : Prop where
  memtable : s'.tree.memtable = s.tree.memtable
  max : s'.tree.maxMemBytes = s.tree.maxMemBytes

/-- Where an operation returns, it has not touched the memtable. -/
def Exit.SameMem (s : Store) (x : Exit) : Prop := ∀ s' err, x = .returned s' err → s.SameMem s'

theorem Store.SameMem.trans {s₁ : Store} {x : Exit} (h : s.SameMem s₁) (hx : x.SameMem s₁) :
    x.SameMem s := by
  intro s' err hs'
  have hlast := hx s' err hs'
  exact ⟨hlast.memtable.trans h.memtable, hlast.max.trans h.max⟩

theorem sameMem_returned {s' : Store} {err : Bool} (h : s.SameMem s') :
    (Exit.returned s' err).SameMem s := by
  intro s'' err' heq
  obtain ⟨rfl, -⟩ := Exit.returned.inj heq
  exact h

theorem sameMem_crashed (d : Disk) : (Exit.crashed d).SameMem s := by
  intro s' err heq
  cases heq

theorem sameMem_mergeSources (env : Env) (io : FlushOutcome) (level : ℕ) (sources : List SSTable)
    (s : Store) : (mergeSources env io level sources s).SameMem s := by
  unfold mergeSources
  split
  · split
    · exact sameMem_crashed _
    · exact sameMem_returned ⟨rfl, rfl⟩
    · simp only [removeSources]
      split_ifs
      · exact sameMem_crashed _
      · exact sameMem_returned ⟨rfl, rfl⟩
  · exact sameMem_returned ⟨rfl, rfl⟩

theorem sameMem_compactLocked (env : Env) (io : FlushOutcome) (level : ℕ) (s : Store) :
    (compactLocked env io level s).SameMem s := by
  simp only [compactLocked]
  split_ifs
  · exact sameMem_returned ⟨rfl, rfl⟩
  · exact (Store.SameMem.mk rfl rfl : s.SameMem (s.padded level)).trans
      (sameMem_mergeSources env io level _ _)

theorem sameMem_finishFlush (env : Env) (io : FlushOutcome) (s : Store) :
    (finishFlush env io s).SameMem s := by
  have hrotate : (rotate io.rotate s).SameMem s := by
    unfold rotate
    split
    · exact sameMem_returned ⟨rfl, rfl⟩
    · exact sameMem_returned ⟨rfl, rfl⟩
    · exact sameMem_returned ⟨rfl, rfl⟩
    · exact sameMem_returned ⟨rfl, rfl⟩
    · exact sameMem_crashed _
    · exact sameMem_crashed _
  unfold finishFlush
  rcases hr : rotate io.rotate s with ⟨s₁, _ | _⟩ | d <;> dsimp only
  · have hfirst : s.SameMem s₁ := hrotate s₁ false hr
    split_ifs
    · exact hfirst.trans (sameMem_compactLocked env io 0 s₁)
    · exact sameMem_returned hfirst
  · exact sameMem_returned (hrotate s₁ true hr)
  · exact sameMem_crashed d

/-- **A flush** empties the memtable; or it leaves it, with an error or with
nothing in it. -/
theorem flushLocked_spec {s' : Store} {err : Bool}
    (h : flushLocked env io s = .returned s' err) :
    s'.tree.maxMemBytes = s.tree.maxMemBytes ∧
      (s'.tree.memtable = .new ∨
        s'.tree.memtable = s.tree.memtable ∧ (err = true ∨ s.tree.memtable.len = 0)) := by
  unfold flushLocked at h
  split_ifs at h with hempty
  · obtain ⟨rfl, -⟩ := Exit.returned.inj h
    exact ⟨rfl, Or.inr ⟨rfl, Or.inr hempty⟩⟩
  · dsimp only at h
    split at h
    · cases h
    · obtain ⟨rfl, rfl⟩ := Exit.returned.inj h
      exact ⟨rfl, Or.inr ⟨rfl, Or.inl rfl⟩⟩
    · have hsame := sameMem_finishFlush env io _ s' err h
      exact ⟨hsame.max, Or.inl hsame.memtable⟩

/-- A tree whose memtable is accounted for, with the threshold it was opened
with. -/
structure Accounted (env : Env) (maxMemBytes : ℤ) (s : Store) : Prop where
  size : s.tree.memtable.size = s.tree.memtable.exactSize env.codec
  max : s.tree.maxMemBytes = if maxMemBytes ≤ 0 then defaultMemTableMaxBytes else maxMemBytes

variable {maxMemBytes : ℤ}

theorem Accounted.max_pos (h : Accounted env maxMemBytes s) : 0 < s.tree.maxMemBytes := by
  rw [h.max]
  split_ifs with hle
  · decide
  · omega

theorem accounted_newLSMTree (env : Env) (maxMemBytes : ℤ) (d : Disk) :
    Accounted env maxMemBytes (newLSMTree env maxMemBytes d) :=
  ⟨size_replayWAL env.codec _, rfl⟩

theorem Accounted.flushLocked {s' : Store} {err : Bool} (h : Accounted env maxMemBytes s)
    (hflush : Metastore.flushLocked env io s = .returned s' err) :
    Accounted env maxMemBytes s' := by
  obtain ⟨hmax, hnew | ⟨hmem, -⟩⟩ := flushLocked_spec hflush
  · refine ⟨?_, hmax.trans h.max⟩
    rw [hnew]
    rfl
  · refine ⟨?_, hmax.trans h.max⟩
    rw [hmem]
    exact h.size

theorem Accounted.applyEntry (h : Accounted env maxMemBytes s) (entry : StatEntry) (val : Bytes) :
    Accounted env maxMemBytes (s.applyEntry env entry val) :=
  ⟨MemTable.size_put h.size _ _, h.max⟩

theorem exactSize_of_len {m : MemTable} (h : m.len = 0) (c : Codec) : m.exactSize c = 0 := by
  have hentries : m.data.entries = [] := by
    unfold MemTable.len at h
    rw [List.length_eq_zero_iff] at h
    exact List.map_eq_nil_iff.mp h
  unfold MemTable.exactSize
  rw [hentries]
  rfl

/-- **A write** keeps the account, and where it returns `nil` the memtable
is not above the threshold. -/
theorem Accounted.write {s' : Store} {err : Bool} {entry : StatEntry}
    (h : Accounted env maxMemBytes s)
    (hwrite : Metastore.write env io s entry = .returned s' err) :
    Accounted env maxMemBytes s' ∧
      (err = false → s'.tree.memtable.exactSize env.codec ≤ s'.tree.maxMemBytes) := by
  unfold Metastore.write at hwrite
  split at hwrite
  · obtain ⟨rfl, rfl⟩ := Exit.returned.inj hwrite
    exact ⟨h, fun herr => by cases herr⟩
  · rename_i val _
    have happlied := h.applyEntry entry val
    unfold writeLocked at hwrite
    dsimp only at hwrite
    split_ifs at hwrite with hfull
    · have hafter := happlied.flushLocked hwrite
      refine ⟨hafter, fun herr => ?_⟩
      obtain ⟨-, hnew | ⟨hmem, herr' | hlen⟩⟩ := flushLocked_spec hwrite
      · rw [hnew]
        exact hafter.max_pos.le
      · rw [herr] at herr'
        cases herr'
      · rw [hmem, exactSize_of_len hlen]
        exact hafter.max_pos.le
    · obtain ⟨rfl, -⟩ := Exit.returned.inj hwrite
      refine ⟨happlied, fun _ => ?_⟩
      rw [← happlied.size]
      exact not_lt.mp hfull

/-! ## Runs -/

/-- What can happen to a tree: an action, or a call on its log that fails,
which leaves the directory and the sequence number as it may. -/
inductive TreeEvent where
  | action (a : Action)
  | logFailed (d : Disk) (walSeq : UInt64)

/-- The store after an event. -/
def Store.after (env : Env) (maxMemBytes : ℤ) (s : Store) : TreeEvent → Store
  | .action a => (a.exit env s).1.settle env maxMemBytes (a.exit env s).2
  | .logFailed d walSeq => { tree := { s.tree with walSeq }, disk := d }

/-- A tree that is opened again is accounted for. -/
theorem accounted_settle {x : Exit} (cut : ℕ)
    (h : ∀ s' err, x = .returned s' err → Accounted env maxMemBytes s') :
    Accounted env maxMemBytes (x.settle env maxMemBytes cut) := by
  rcases x with ⟨s', err⟩ | d
  · exact h s' err rfl
  · exact accounted_newLSMTree env maxMemBytes _

theorem Accounted.after (h : Accounted env maxMemBytes s) (event : TreeEvent) :
    Accounted env maxMemBytes (s.after env maxMemBytes event) := by
  rcases event with a | ⟨d, walSeq⟩
  · rcases a with ⟨entry, io⟩ | io | key | cut | ⟨entry, cut⟩
    · exact accounted_settle _ fun s' err hs' => (h.write hs').1
    · exact accounted_settle _ fun s' err hs' => h.flushLocked hs'
    · obtain ⟨cache, hread⟩ := read_eq s.tree env.codec key
      show Accounted env maxMemBytes { s with tree := (s.tree.read env.codec key).2 }
      rw [hread]
      exact ⟨h.size, h.max⟩
    · exact accounted_newLSMTree env maxMemBytes _
    · simp only [Store.after, Action.exit]
      split <;> exact accounted_newLSMTree env maxMemBytes _
  · exact ⟨h.size, h.max⟩

/-- **The memtable is accounted for, and bounded.** After any puts the size
of a memtable is the exact one. And after any events on a tree opened on
any directory, a write that returns `nil` leaves a memtable whose exact
size is not above the threshold. -/
theorem memtable_size_exact (env : Env) (maxMemBytes : ℤ) (d : Disk) (events : List TreeEvent) :
    (∀ (c : Codec) (puts : List (GoString × StatEntry)),
      let m := puts.foldl (fun m p => m.put c p.1 p.2) MemTable.new
      m.size = m.exactSize c) ∧
    ∀ (io : FlushOutcome) (entry : StatEntry) (s' : Store),
      write env io (events.foldl (Store.after env maxMemBytes) (newLSMTree env maxMemBytes d)) entry
        = .returned s' false →
      s'.tree.memtable.size = s'.tree.memtable.exactSize env.codec ∧
        s'.tree.memtable.exactSize env.codec ≤ s'.tree.maxMemBytes := by
  refine ⟨fun c puts => MemTable.size_foldl_put rfl puts, fun io entry s' hwrite => ?_⟩
  have hrun : Accounted env maxMemBytes
      (events.foldl (Store.after env maxMemBytes) (newLSMTree env maxMemBytes d)) :=
    List.foldlRecOn events _ (accounted_newLSMTree env maxMemBytes d) fun s h event _ =>
      h.after event
  obtain ⟨hafter, hbound⟩ := hrun.write hwrite
  exact ⟨hafter.size, hbound rfl⟩

/-- Entries of twelve bytes under a key of four: a second version takes the
place of the first, and an entry of another key flushes the two. -/
theorem memtable_size_sample :
    (∃ s', write risingEnv .ok ([TreeEvent.action (.write (sampleEntry 97 1) .ok)].foldl
          (Store.after risingEnv 16) (newLSMTree risingEnv 16 .empty)) (sampleEntry 97 2)
        = .returned s' false ∧ s'.tree.memtable.size = 16 ∧
      s'.tree.memtable.exactSize risingEnv.codec ≤ s'.tree.maxMemBytes) ∧
    ∃ s', write sampleEnv .ok ([TreeEvent.action (.write (sampleEntry 97 1) .ok)].foldl
          (Store.after sampleEnv 16) (newLSMTree sampleEnv 16 .empty)) (sampleEntry 98 2)
        = .returned s' false ∧ s'.tree.memtable.size = 0 ∧
      s'.tree.memtable.exactSize sampleCodec ≤ s'.tree.maxMemBytes := by
  refine ⟨⟨_, rfl, rfl, ?_⟩, _, rfl, rfl, ?_⟩
  · exact ((memtable_size_exact risingEnv 16 .empty [.action (.write (sampleEntry 97 1) .ok)]).2
      .ok (sampleEntry 97 2) _ rfl).2
  · exact ((memtable_size_exact sampleEnv 16 .empty [.action (.write (sampleEntry 97 1) .ok)]).2
      .ok (sampleEntry 98 2) _ rfl).2

end Metastore

end TftAnalytics

import TftAnalytics.Metastore.Model.History
/-!
# Metastore — scans, and work in the background

`LSMTree.Scan`, which merges what all sources hold, and the work a store
does without being written to: flushes, compactions, evictions from the
block cache, reads, and closing and opening the directory again. A run
mixes such work with the actions of a history.
-/

namespace TftAnalytics

namespace Metastore

/-! ## Scans -/

/-- `MemTable.Scan`. -/
def MemTable.scan (m : MemTable) (keep : StatEntry → Bool) : List StatEntry :=
  (m.data.entries.map (·.2)).filter keep

/-- `LSMTree.Scan`: the newest version of each key, by key. A table that
does not scan is passed over. -/
def LSMTree.scan (t : LSMTree) (c : Codec) (keep : StatEntry → Bool) :
    AList fun _ : GoString => StatEntry :=
  let merged := (t.memtable.scan keep).foldl mergeEntry ∅
  let merged := ((t.immutable.map fun m => m.scan keep).getD []).foldl mergeEntry merged
  t.levels.foldl (fun merged tables =>
    tables.foldl (fun merged sst => ((sst.scan c keep).getD []).foldl mergeEntry merged) merged)
    merged

/-- The entry for `key` in an unfiltered scan. -/
def History.scan (env : Env) (h : History) (key : GoString) : Option StatEntry :=
  (h.store.tree.scan env.codec fun _ => true).lookup key

/-! ## Background work -/

/-- What happens to a tree between writes. In `reopen` the tree is closed,
which flushes it, and the directory opened again. -/
inductive Background where
  | flush (io : FlushOutcome)
  | compact (io : FlushOutcome)
  | evict
  | read (key : GoString)
  | reopen (io : FlushOutcome)

/-- How the work ends, up to the opening of a closed directory, and what a
stop in it leaves of the log. -/
def Background.exit (env : Env) (s : Store) : Background → Exit × ℕ
  | .flush io => (flushLocked env io s, io.walCut)
  | .compact io => (compactLocked env io 0 s, io.walCut)
  | .evict => (.returned
      { s with tree := { s.tree with blockCache := s.tree.blockCache.evict } } false, 0)
  | .read key => (.returned { s with tree := (s.tree.read env.codec key).2 } false, 0)
  | .reopen io => (flushLocked env io s, io.walCut)

/-- The work closes the tree. -/
def Background.Reopens : Background → Prop
  | .reopen _ => True
  | _ => False

instance : DecidablePred Background.Reopens
  | .reopen _ => isTrue trivial
  | .flush _ => isFalse id
  | .compact _ => isFalse id
  | .evict => isFalse id
  | .read _ => isFalse id

/-- A piece of background work in a history. -/
def History.background (env : Env) (maxMemBytes : ℤ) (h : History) (b : Background) : History :=
  match b.exit env h.store with
  | (.returned s _, _) =>
    if b.Reopens then
      { store := newLSMTree env maxMemBytes s.disk, acked := h.acked, buried := false }
    else { store := s, acked := h.acked, buried := h.buried && decide (s.disk.wal ≠ []) }
  | (.crashed d, cut) =>
    { store := newLSMTree env maxMemBytes (d.survive cut), acked := h.acked, buried := false }

/-- An operation that ends so does not lose what is in the log: neither a
stop nor the opening of a closed directory reads back a record behind a
torn one. -/
def Exit.Rests (reopens : Prop) (buried : Bool) : Exit → Prop
  | .returned s _ => reopens → buried = false ∨ s.disk.wal = []
  | .crashed _ => buried = false

instance (reopens : Prop) [Decidable reopens] (buried : Bool) :
    DecidablePred (Exit.Rests reopens buried)
  | .returned _ _ => inferInstanceAs (Decidable (_ → _ ∨ _))
  | .crashed _ => inferInstanceAs (Decidable (_ = _))

/-! ## Runs -/

/-- An action, or background work. -/
inductive Work where
  | action (a : Action)
  | background (b : Background)

/-- The entry it writes. -/
def Work.given : Work → Option StatEntry
  | .action a => a.given
  | .background _ => none

/-- One piece of work. -/
def History.work (env : Env) (maxMemBytes : ℤ) (h : History) : Work → History
  | .action a => h.step env maxMemBytes a
  | .background b => h.background env maxMemBytes b

/-- A run from an empty directory. -/
def run (env : Env) (maxMemBytes : ℤ) (ws : List Work) : History :=
  ws.foldl (History.work env maxMemBytes) (.init env maxMemBytes)

/-- The work does not make the store read back a log with a record behind
a torn one. -/
def History.Secure (env : Env) (h : History) : Work → Prop
  | .action a => h.Spares env a
  | .background b => (b.exit env h.store).1.Rests b.Reopens h.buried

instance (env : Env) (h : History) : DecidablePred (h.Secure env)
  | .action _ => inferInstanceAs (Decidable (History.Spares ..))
  | .background _ => inferInstanceAs (Decidable (Exit.Rests ..))

/-- **No log is read back with a record behind a torn one**, from `h` on. -/
def ReadsBack (env : Env) (maxMemBytes : ℤ) : History → List Work → Prop
  | _, [] => True
  | h, w :: ws => h.Secure env w ∧ ReadsBack env maxMemBytes (h.work env maxMemBytes w) ws

instance decidableReadsBack (env : Env) (maxMemBytes : ℤ) :
    ∀ (h : History) (ws : List Work), Decidable (ReadsBack env maxMemBytes h ws)
  | _, [] => isTrue trivial
  | h, w :: ws =>
    have := decidableReadsBack env maxMemBytes (h.work env maxMemBytes w) ws
    inferInstanceAs (Decidable (_ ∧ _))

/-- The entries a run is given. -/
def givenEntries (ws : List Work) : List StatEntry := ws.filterMap Work.given

/-- **Every conflict is decided**: of two entries of one key `pickNewer`
ranks one above the other, and it ranks them all in one order. -/
def Ordered (es : List StatEntry) : Prop :=
  (∀ a ∈ es, ∀ b ∈ es, entryKey a = entryKey b → a ≠ b → Beats a b ∨ Beats b a) ∧
    ∀ a ∈ es, ∀ b ∈ es, ∀ c ∈ es, entryKey a = entryKey b → entryKey b = entryKey c →
      Beats a b → Beats b c → Beats a c

instance (es : List StatEntry) : Decidable (Ordered es) := inferInstanceAs (Decidable (_ ∧ _))

end Metastore

end TftAnalytics

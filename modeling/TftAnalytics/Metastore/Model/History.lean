import TftAnalytics.Metastore.Model.Lsm
import TftAnalytics.Metastore.Helpers.Wal
/-!
# Metastore — histories of a tree

A history is a list of actions on one directory: writes, flushes, reads,
and the machine stopping, between operations or anywhere inside one, after
which the tree is opened again. The entries whose writes returned `nil`
are kept, and so is whether the log holds a record behind a torn one.
-/

namespace TftAnalytics

namespace Metastore

/-- What can happen to a tree. In `crashWrite` the machine stops while
`Write` writes its records; `cut` bytes of the log are left, or as many as
are synced. -/
inductive Action where
  | write (entry : StatEntry) (io : FlushOutcome)
  | flush (io : FlushOutcome)
  | read (key : GoString)
  | crash (cut : ℕ)
  | crashWrite (entry : StatEntry) (cut : ℕ)

/-- The entry an action writes. -/
def Action.given : Action → Option StatEntry
  | .write e _ => some e
  | .crashWrite e _ => some e
  | _ => none

/-- How an action ends, and what a stop in it leaves of the log. -/
def Action.exit (env : Env) (s : Store) : Action → Exit × ℕ
  | .write e io => (Metastore.write env io s e, io.walCut)
  | .flush io => (flushLocked env io s, io.walCut)
  | .read key => (.returned { s with tree := (s.tree.read env.codec key).2 } false, 0)
  | .crash cut => (.crashed s.disk, cut)
  | .crashWrite e cut =>
    match env.codec.marshal e with
    | none => (.crashed s.disk, cut)
    | some val => (.crashed (s.tornWrite e val), cut)

/-- What an action that returned has acknowledged. -/
def Action.ack (err : Bool) : Action → List StatEntry
  | .write e _ => if err then [] else [e]
  | _ => []

/-- **The action writes bytes behind a torn record.** -/
def Action.Buries (env : Env) (s : Store) : Action → Prop
  | .write e _ => env.codec.marshal e ≠ none ∧ ¬ Whole s.disk.wal
  | .crashWrite e cut =>
    env.codec.marshal e ≠ none ∧ s.disk.wal.length < cut ∧ ¬ Whole s.disk.wal
  | _ => False

instance (env : Env) (s : Store) : DecidablePred (Action.Buries env s)
  | .write _ _ => inferInstanceAs (Decidable (_ ∧ _))
  | .crashWrite _ _ => inferInstanceAs (Decidable (_ ∧ _))
  | .flush _ => isFalse id
  | .read _ => isFalse id
  | .crash _ => isFalse id

/-- The store an operation ends in: the one returned, or the one opened on
what a stop left. -/
def Exit.settle (env : Env) (maxMemBytes : ℤ) (cut : ℕ) : Exit → Store
  | .returned s _ => s
  | .crashed d => newLSMTree env maxMemBytes (d.survive cut)

/-- A tree with its history. -/
structure History where
  store : Store
  acked : List StatEntry
  buried : Bool

/-- The empty directory, opened. -/
def History.init (env : Env) (maxMemBytes : ℤ) : History :=
  { store := newLSMTree env maxMemBytes .empty, acked := [], buried := false }

/-- One action. A write that returns `nil` is noted; a log that is empty
buries nothing; a machine that stopped opens the tree again. -/
def History.step (env : Env) (maxMemBytes : ℤ) (h : History) (a : Action) : History :=
  match a.exit env h.store with
  | (.returned s err, _) =>
    { store := s
      acked := a.ack err ++ h.acked
      buried := (h.buried || decide (a.Buries env h.store)) && decide (s.disk.wal ≠ []) }
  | (.crashed d, cut) =>
    { store := newLSMTree env maxMemBytes (d.survive cut), acked := h.acked, buried := false }

/-- A whole history, from an empty directory. -/
def history (env : Env) (maxMemBytes : ℤ) (acts : List Action) : History :=
  acts.foldl (History.step env maxMemBytes) (.init env maxMemBytes)

/-- The machine does not stop while a record lies behind a torn one. -/
def History.Spares (env : Env) (h : History) (a : Action) : Prop :=
  (a.exit env h.store).1.Crashes → h.buried = false ∧ ¬ a.Buries env h.store

instance (env : Env) (h : History) (a : Action) : Decidable (h.Spares env a) :=
  inferInstanceAs (Decidable (_ → _))

/-- **No stop of the machine finds a record behind a torn one**, from `h`
on. -/
def Unburied (env : Env) (maxMemBytes : ℤ) : History → List Action → Prop
  | _, [] => True
  | h, a :: acts => h.Spares env a ∧ Unburied env maxMemBytes (h.step env maxMemBytes a) acts

instance decidableUnburied (env : Env) (maxMemBytes : ℤ) :
    ∀ (h : History) (acts : List Action), Decidable (Unburied env maxMemBytes h acts)
  | _, [] => isTrue trivial
  | h, a :: acts =>
    have := decidableUnburied env maxMemBytes (h.step env maxMemBytes a) acts
    inferInstanceAs (Decidable (_ ∧ _))

/-- The entry a read of `key` returns. -/
def History.read (env : Env) (h : History) (key : GoString) : Option StatEntry :=
  (h.store.tree.read env.codec key).1

/-- `pickNewer` ranks `e` strictly above `r`: it returns `e` whichever way
round it is given the two. -/
def Beats (e r : StatEntry) : Prop := newerOf e r = e ∧ newerOf r e = e ∧ e ≠ r

instance (e r : StatEntry) : Decidable (Beats e r) := inferInstanceAs (Decidable (_ ∧ _))

/-- **Every acknowledged write is durable**: reading its key finds an entry
that it does not beat. -/
def History.Durable (env : Env) (h : History) : Prop :=
  ∀ e ∈ h.acked, ∃ r, h.read env (entryKey e) = some r ∧ ¬ Beats e r

/-! ## Sample entries -/

/-- A clock of one counter. -/
def oneClock (node : GoString) (n : Int64) : VectorClock :=
  ⟨⟨[⟨node, n⟩], by simp⟩, by simp [AList.keys]⟩

/-- An entry of the store's tests, cut down: its id, and a clock of one
counter. -/
def sampleEntry (id : UInt8) (n : Int64) : StatEntry :=
  { entityId := [id], entityType := [], patch := [], region := [], tier := [], winRate := 0,
    avgPlacement := 0, playRate := 0, sampleSize := 0, clock := some (oneClock [110] n) }

/-- The encodings of two such entries. -/
def sampleCodec : Codec :=
  .ofTable
    [(sampleEntry 97 1, [10, 1, 97, 82, 7, 10, 5, 10, 1, 110, 16, 1]),
      (sampleEntry 98 2, [10, 1, 98, 82, 7, 10, 5, 10, 1, 110, 16, 2])] (by decide)

/-- Readings of a clock that advances by one. -/
def sampleEnv : Env := ⟨sampleCodec, fun n => n, strictMono_id⟩

/-- The same, with the encodings of three versions of one key. -/
def risingEnv : Env where
  codec := .ofTable
    [(sampleEntry 97 1, [10, 1, 97, 82, 7, 10, 5, 10, 1, 110, 16, 1]),
      (sampleEntry 97 2, [10, 1, 97, 82, 7, 10, 5, 10, 1, 110, 16, 2]),
      (sampleEntry 97 3, [10, 1, 97, 82, 7, 10, 5, 10, 1, 110, 16, 3])] (by decide)
  nano := fun n => n
  nano_strictMono := strictMono_id

end Metastore

end TftAnalytics

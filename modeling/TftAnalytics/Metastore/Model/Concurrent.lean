import TftAnalytics.Metastore.Model.History
/-!
# Metastore — concurrent calls on one tree

Any number of goroutines call `Write`, `Flush` and `Read` on one tree
without I/O failures. A goroutine moves from one lock-protected section to
the next: a write or a flush has one, under the tree's lock; a read looks
at the block cache first and takes the read lock when that is a miss. The
sections of different goroutines interleave in any order. A read remembers
which writes had returned when it began.
-/

namespace TftAnalytics

namespace Metastore

/-- Where a goroutine is in its call. -/
inductive Stage where
  | writing (entry : StatEntry)
  | wrote (entry : StatEntry) (err : Bool)
  | flushing
  | flushed
  | reading (key : GoString) (before : List StatEntry)
  | missed (key : GoString) (before : List StatEntry)
  | found (key : GoString) (before : List StatEntry) (result : Option StatEntry)

/-- The tree, the goroutines in a call, the entries that were stored and
those whose writes returned `nil`. -/
structure Shared where
  store : Store
  calls : ℕ → Option Stage
  stored : List StatEntry
  returned : List StatEntry

/-- What a goroutine does next: it starts a call, or goes on with the one
it is in. -/
inductive Move where
  | write (entry : StatEntry)
  | flush
  | read (key : GoString)
  | advance

namespace Shared

/-- A new tree in an empty directory. -/
def init (env : Env) (maxMemBytes : ℤ) : Shared :=
  { store := newLSMTree env maxMemBytes .empty
    calls := fun _ => none
    stored := []
    returned := [] }

/-- Goroutine `t` is at `stage`. -/
def goto (σ : Shared) (t : ℕ) (stage : Option Stage) : Shared :=
  { σ with calls := Function.update σ.calls t stage }

/-- A call starts when its goroutine is in none. -/
def invoke (σ : Shared) (t : ℕ) (stage : Stage) : Shared :=
  match σ.calls t with
  | none => σ.goto t (some stage)
  | some _ => σ

/-- The next section of goroutine `t`, or its return. -/
def advance (env : Env) (σ : Shared) (t : ℕ) : Shared :=
  match σ.calls t with
  | none => σ
  | some (.writing e) =>
    match Metastore.write env .ok σ.store e with
    | .returned s err =>
      { σ.goto t (some (.wrote e err)) with
        store := s
        stored := if env.codec.marshal e = none then σ.stored else e :: σ.stored }
    | .crashed _ => σ
  | some (.wrote e err) =>
    { σ.goto t none with returned := if err then σ.returned else e :: σ.returned }
  | some .flushing =>
    match flushLocked env .ok σ.store with
    | .returned s _ => { σ.goto t (some .flushed) with store := s }
    | .crashed _ => σ
  | some .flushed => σ.goto t none
  | some (.reading key before) =>
    let (hit, tree) := σ.store.tree.readCache env.codec key
    let stage := match hit with
      | some e => .found key before (some e)
      | none => .missed key before
    { σ.goto t (some stage) with store := { σ.store with tree := tree } }
  | some (.missed key before) =>
    let (result, tree) := σ.store.tree.readLocked env.codec key
    { σ.goto t (some (.found key before result)) with store := { σ.store with tree := tree } }
  | some (.found _ _ _) => σ.goto t none

/-- One move of goroutine `t`. -/
def step (env : Env) (σ : Shared) : ℕ × Move → Shared
  | (t, .write e) => σ.invoke t (.writing e)
  | (t, .flush) => σ.invoke t .flushing
  | (t, .read key) => σ.invoke t (.reading key σ.returned)
  | (t, .advance) => σ.advance env t

/-- An interleaving. -/
def run (env : Env) (maxMemBytes : ℤ) (moves : List (ℕ × Move)) : Shared :=
  moves.foldl (step env) (init env maxMemBytes)

end Shared

end Metastore

end TftAnalytics

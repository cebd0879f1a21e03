import Kyzo.Lib.Runs
import Kyzo.Lib.Toggles
import Kyzo.Plan.Program

/-!
# Standing queries and their events

`react/standing.rs`, with the mutation path of `session/admit.rs` and the delivery of
`session/observe.rs` it rests on.  A write transaction reads the watched relations once, writes
rows, collects an event for each mutation of a watched relation, commits, and then sends its events.
A standing query subscribes to its base relations, reads a snapshot of them, and keeps them up to
date from the events it drains, netted over each batch.

Rows at the default validity: a write takes the instant of its own transaction, so a relation's
current rows are one row of values for each key at most.
-/

namespace Kyzo

open Function

/-! ## Mutations and their events -/

/-- A row: its key columns and the others. -/
structure KeyedRow where
  key : Tuple
  vals : Tuple
  deriving DecidableEq

/-- The current rows of a relation, by key. -/
abbrev CurrentRows := Tuple → Option Tuple

/-- Whether a row is current. -/
def CurrentRows.has (rows : CurrentRows) (r : KeyedRow) : Bool := decide (rows r.key = some r.vals)

/-- The current row at a key (`current_row_routed`), as the list of collected rows it adds to. -/
def CurrentRows.at (rows : CurrentRows) (key : Tuple) : List KeyedRow :=
  (rows key).toList.map (⟨key, ·⟩)

/-- A put or rm script's mutation: the rows or keys extracted from its result, in order. -/
inductive Mutation
  | put (rows : List KeyedRow)
  | rm (keys : List Tuple)

/-- `CallbackEvent`: for a put the rows it wrote and those it replaced, for an rm the keys and the
rows it removed. -/
inductive CallbackEvent
  | put (new old : List KeyedRow)
  | rm (new : List Tuple) (old : List KeyedRow)

namespace Mutation

/-- The keys a mutation reads and writes. -/
def keys : Mutation → List Tuple
  | put rows => rows.map KeyedRow.key
  | rm keys => keys

/-- The row loop of `put_into_relation`: the rows afterwards, and `old_tuples`. -/
def putRows : CurrentRows → List KeyedRow → CurrentRows × List KeyedRow
  | view, [] => (view, [])
  | view, row :: rows =>
    let next := putRows (update view row.key (some row.vals)) rows
    (next.1, view.at row.key ++ next.2)

/-- The row loop of `remove_from_relation`. -/
def rmRows : CurrentRows → List Tuple → CurrentRows × List KeyedRow
  | view, [] => (view, [])
  | view, key :: keys =>
    let next := rmRows (update view key none) keys
    (next.1, view.at key ++ next.2)

/-- A mutation: the rows afterwards, and what is collected of it. -/
def run (view : CurrentRows) : Mutation → CurrentRows × CallbackEvent
  | put rows => ((putRows view rows).1, .put rows (putRows view rows).2)
  | rm keys => ((rmRows view keys).1, .rm keys (rmRows view keys).2)

end Mutation

/-- What an event adds to the multiplicity of a row in `apply_pending`: for a put the difference of
its two sets, for an rm the rows it removed. -/
def CallbackEvent.delta (r : KeyedRow) : CallbackEvent → ℤ
  | put new old =>
    (if r ∈ new ∧ r ∉ old then 1 else 0) - (if r ∈ old ∧ r ∉ new then 1 else 0)
  | rm _ old => -(old.count r : ℤ)

/-! ## Patches -/

/-- The sign of a fact of a patch. -/
inductive Sign
  | plus
  | minus

/-- The fact of a net multiplicity: none for a row that comes and goes. -/
def signOf (n : ℤ) : Option Sign :=
  if 0 < n then some .plus else if n < 0 then some .minus else none

/-- The branch of `incremental_eval` for a base relation: a fact that changes nothing is filtered,
the others are inserted or removed. -/
def patchRow (old : Bool) (n : ℤ) : Bool :=
  match signOf n with
  | some .plus => if !old then true else old
  | some .minus => if old then false else old
  | none => old

/-! ## The transactions -/

/-- A write transaction: the watched relations it read at its start, its snapshot and its own view
of the rows, the keys it read, the mutations whose triggers are running, the events it collected,
and whether it has committed. -/
structure WriteSession where
  targets : Symbol → Bool
  snapshot : Symbol → CurrentRows
  view : Symbol → CurrentRows
  reads : List (Symbol × Tuple)
  frames : List (Symbol × CallbackEvent)
  collector : List (Symbol × CallbackEvent)
  committed : Bool

namespace WriteSession

/-- A fresh attempt at a snapshot of the committed rows; the watched relations are read once for all
attempts. -/
def start (targets : Symbol → Bool) (committed : Symbol → CurrentRows) : WriteSession where
  targets := targets
  snapshot := committed
  view := committed
  reads := []
  frames := []
  collector := []
  committed := false

variable (tx : WriteSession)

/-- A mutation of a relation.  One with rows leaves a frame, under which its triggers run. -/
def mutate (rel : Symbol) (m : Mutation) : WriteSession :=
  if m.keys = [] then tx
  else
    let result := m.run (tx.view rel)
    { tx with
      view := update tx.view rel result.1
      reads := tx.reads ++ m.keys.map (rel, ·)
      frames := (rel, result.2) :: tx.frames }

/-- The triggers of the last mutation are done: its event is collected if the relation is
watched. -/
def finish : Option WriteSession :=
  match tx.frames with
  | [] => none
  | (rel, event) :: frames => some { tx with
      frames := frames
      collector := if tx.targets rel then tx.collector ++ [(rel, event)] else tx.collector }

/-- What was read is still committed. -/
def Unconflicted (committed : Symbol → CurrentRows) : Prop :=
  ∀ e ∈ tx.reads, committed e.1 e.2 = tx.snapshot e.1 e.2

instance (tx : WriteSession) (committed : Symbol → CurrentRows) :
    Decidable (tx.Unconflicted committed) := inferInstanceAs (Decidable (∀ e ∈ tx.reads, _))

/-- The committed rows after the transaction's commit. -/
def apply (committed : Symbol → CurrentRows) : Symbol → CurrentRows :=
  fun rel key => if (rel, key) ∈ tx.reads then tx.view rel key else committed rel key

end WriteSession

/-- The events of one relation, in order. -/
def eventsOf (rel : Symbol) (events : List (Symbol × CallbackEvent)) : List CallbackEvent :=
  (events.filter (fun e => e.1 = rel)).map Prod.snd

/-- `StandingQuery`: its subscriptions with their queues, the maintained base rows once they are
read, and the multiplicities netted so far in the batch being drained. -/
structure StandingQuery where
  subscribed : Symbol → Bool
  queue : Symbol → List CallbackEvent
  rows : Option (Symbol → KeyedRow → Bool)
  net : Symbol → KeyedRow → ℤ

/-- The store, the transactions under way and a standing query. -/
structure Watch where
  committed : Symbol → CurrentRows
  writers : ℕ → Option WriteSession
  query : StandingQuery

/-- The steps of writers and of the query. -/
inductive WatchAction
  | begin (w : ℕ) (others : Symbol → Bool)
  | mutate (w : ℕ) (rel : Symbol) (m : Mutation)
  | finish (w : ℕ)
  | retry (w : ℕ)
  | commit (w : ℕ)
  | abort (w : ℕ)
  | deliver (w : ℕ) (rel : Symbol)
  | leave (w : ℕ)
  | subscribe (rel : Symbol)
  | snapshot
  | recv (rel : Symbol)
  | apply

namespace Watch

/-- A writer in its next state, or gone. -/
def setWriter (s : Watch) (w : ℕ) (tx : Option WriteSession) : Watch :=
  { s with writers := update s.writers w tx }

section

variable (s : Watch) (w : ℕ) (tx : WriteSession)

/-- A transaction commits. -/
def commitWriter : Watch :=
  { s.setWriter w (some { tx with committed := true }) with committed := tx.apply s.committed }

/-- A transaction sends an event of a relation, to whoever watches it by now. -/
def sendEvent (rel : Symbol) (event : CallbackEvent) : Watch :=
  let queue := if s.query.subscribed rel then
    update s.query.queue rel (s.query.queue rel ++ [event]) else s.query.queue
  { s.setWriter w (some { tx with collector := tx.collector.eraseP (fun e => e.1 = rel) }) with
    query := { s.query with queue := queue } }

/-- The steps of a transaction after its start: its mutations, its commit and, after that, the
delivery of its events (`send_callbacks`). -/
def stepWriter : WatchAction → Option Watch
  | .mutate _ rel m => if tx.committed then none else some (s.setWriter w (some (tx.mutate rel m)))
  | .finish _ => if tx.committed then none else tx.finish.map fun tx => s.setWriter w (some tx)
  | .commit _ =>
    if tx.committed = false ∧ tx.frames = [] ∧ tx.Unconflicted s.committed then
      some (s.commitWriter w tx)
    else none
  | .retry _ =>
    if tx.committed then none else some (s.setWriter w (some (.start tx.targets s.committed)))
  | .abort _ => if tx.committed then none else some (s.setWriter w none)
  | .deliver _ rel =>
    if tx.committed then
      match eventsOf rel tx.collector with
      | [] => none
      | event :: _ => some (s.sendEvent w tx rel event)
    else none
  | .leave _ => if tx.committed ∧ tx.collector = [] then some (s.setWriter w none) else none
  | _ => none

end

variable (edb : List Symbol)
  (evaluates : (Symbol → KeyedRow → Bool) → (Symbol → KeyedRow → ℤ) → Bool)

/-- The steps of a registration and of `apply_pending`.  A batch whose evaluation fails is drained
and not applied; an empty patch leaves the rows either way. -/
def stepQuery (s : Watch) : WatchAction → Option Watch
  | .subscribe rel =>
    if rel ∈ edb ∧ s.query.rows.isNone then
      let subscribed := update s.query.subscribed rel true
      some { s with query := { s.query with subscribed := subscribed } }
    else none
  | .snapshot =>
    if (∀ rel ∈ edb, s.query.subscribed rel = true) ∧ s.query.rows.isNone then
      let rows := fun rel => (s.committed rel).has
      some { s with query := { s.query with rows := some rows, net := fun _ _ => 0 } }
    else none
  | .recv rel =>
    match s.query.rows, s.query.queue rel with
    | some _, event :: queue =>
      let net := update s.query.net rel fun r => s.query.net rel r + event.delta r
      some { s with query := { s.query with
        queue := update s.query.queue rel queue, net := net } }
    | _, _ => none
  | .apply =>
    s.query.rows.map fun rows =>
      let patched := if evaluates rows s.query.net then
        fun rel r => patchRow (rows rel r) (s.query.net rel r) else rows
      { s with query := { s.query with rows := some patched, net := fun _ _ => 0 } }
  | _ => none

/-- One step of a transaction or of the query. -/
def step (s : Watch) (action : WatchAction) : Option Watch :=
  match action with
  | .begin w others =>
    if s.writers w = none then
      let targets := fun rel => s.query.subscribed rel || others rel
      some (s.setWriter w (some (.start targets s.committed)))
    else none
  | .mutate w _ _ | .finish w | .retry w | .commit w | .abort w | .deliver w _ | .leave w =>
    (s.writers w).bind fun tx => s.stepWriter w tx action
  | .subscribe _ | .snapshot | .recv _ | .apply => s.stepQuery edb evaluates action

/-- A store before any registration. -/
def opened (committed : Symbol → CurrentRows) : Watch where
  committed := committed
  writers := fun _ => none
  query := ⟨fun _ => false, fun _ => [], none, fun _ _ => 0⟩

end Watch

end Kyzo

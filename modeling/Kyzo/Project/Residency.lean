import Kyzo.Lib.Runs
import Kyzo.Project.Segment
import Kyzo.Store.SkipWalk

/-!
# Residency of current-row segments

`project/residency.rs` and `project/current.rs`: generation counters, the stable-miss rebuild gate
and the cache of sealed segments; `session/db.rs` and `exec/op/stored.rs`: how writers and readers
use them.  A writer bumps the generation of each relation it touched and then commits; a reader
opens a snapshot, witnesses the generation, and looks up, builds or installs a segment.  Each of
these is a step of its own, so the steps of all transactions interleave freely.
-/

namespace Kyzo

open Function

/-! ## The engine -/

def rebuildAfterStableMisses : ℕ := 2

/-- `Residency`: the generation of each relation (an absent slot is created at zero) and the streak
of misses at one generation. -/
structure Residency where
  marks : RelationId → ℕ
  misses : RelationId → Option (ℕ × ℕ)

namespace Residency

variable (r : Residency) (rel : RelationId)

def bumpBeforeCommit : Residency :=
  { r with marks := update r.marks rel (r.marks rel + 1) }

/-- `Residency::should_build`: whether a rebuild is admitted, and the streak after this miss. -/
def shouldBuild (live : ℕ) : Bool × Residency :=
  let first := (false, { r with misses := update r.misses rel (some (live, 1)) })
  match r.misses rel with
  | some (recorded, count) =>
    if recorded = live then
      let count := min (count + 1) (2 ^ 32 - 1)
      (decide (rebuildAfterStableMisses ≤ count),
        { r with misses := update r.misses rel (some (recorded, count)) })
    else first
  | none => first

def clearMiss : Residency :=
  { r with misses := update r.misses rel none }

def forget : Residency :=
  ⟨update r.marks rel 0, update r.misses rel none⟩

@[simp] lemma shouldBuild_marks (live : ℕ) : (r.shouldBuild rel live).2.marks = r.marks := by
  unfold shouldBuild
  split
  · split_ifs <;> rfl
  · rfl

end Residency

/-- `SegmentEngine`: the residency discipline and the sealed segments, each with its generation. -/
structure SegmentEngine where
  residency : Residency
  segments : RelationId → Option (Segment × ℕ)

/-- `SegmentMiss`: no segment, or one sealed at another generation. -/
inductive SegmentMiss
  | absent
  | stale (segment : Segment)

namespace SegmentEngine

section

variable (e : SegmentEngine) (rel : RelationId)

def witnessAfterSnapshot : ℕ := e.residency.marks rel

def bumpBeforeCommit : SegmentEngine :=
  { e with residency := e.residency.bumpBeforeCommit rel }

/-- `SegmentEngine::get`: `Generation::classify` keeps a segment of an equal stamp. -/
def get (live : ℕ) : Except SegmentMiss Segment :=
  match e.segments rel with
  | none => .error .absent
  | some (segment, stamp) => if live = stamp then .ok segment else .error (.stale segment)

/-- `SegmentEngine::install` up to the streak, which is cleared under a lock of its own. -/
def install (segment : Segment) (generation : ℕ) : SegmentEngine :=
  { e with segments := update e.segments rel (some (segment, generation)) }

def evict : SegmentEngine :=
  ⟨e.residency.forget rel, update e.segments rel none⟩

end

lemma segments_of_get {e : SegmentEngine} {rel : RelationId} {live : ℕ} {segment : Segment}
    (h : e.get rel live = .ok segment) : e.segments rel = some (segment, live) := by
  unfold get at h
  split at h
  · exact nomatch h
  · split_ifs at h with heq
    cases h
    rw [heq]
    assumption

end SegmentEngine

/-! ## Writers and readers -/

/-- The current rows of every relation that exists. -/
abbrev Snapshot := RelationId → Option (List Tuple)

/-- A write transaction that is about to commit: what it makes of the rows of each relation it wrote
(over whatever is committed by then), the relations it destroyed, and the bumps still to be made. -/
structure Writer where
  writes : List (RelationId × (Option (List Tuple) → List Tuple))
  destroys : List RelationId
  toBump : List RelationId

/-- `touched_relations`. -/
def Writer.touched (w : Writer) : List RelationId := w.writes.map Prod.fst

/-- The committed rows after a writer's commit. -/
def Writer.apply (w : Writer) (committed : Snapshot) : Snapshot := fun rel =>
  if rel ∈ w.destroys then none
  else match w.writes.find? (fun entry => entry.1 = rel) with
    | some (_, write) => some (write (committed rel))
    | none => committed rel

/-- Where a call of `segment_at` stands. -/
inductive Stage
  | witnessed (live : ℕ)
  | missed (live : ℕ)
  | building (live : ℕ)
  | installing (segment : Segment)
  | declined
  | served (segment : Segment)

/-- The generation a call still goes by. -/
def Stage.live : Stage → Option ℕ
  | witnessed live | missed live | building live => some live
  | installing _ | declined | served _ => none

/-- The segment a call answers with. -/
def Stage.segment : Stage → Option Segment
  | installing segment | served segment => some segment
  | witnessed _ | missed _ | building _ | declined => none

/-- A call of `segment_at`: its relation, and the rows `scan_all` reads in the caller's snapshot. -/
structure Call where
  rel : RelationId
  rows : List Tuple
  stage : Stage

/-- `Db`: the engine, the committed rows, and the transactions under way.  A retired relation is one
whose destruction has committed: its identity is not used again. -/
structure Db where
  segments : SegmentEngine
  committed : Snapshot
  retired : RelationId → Bool
  toEvict : List RelationId
  writers : ℕ → Option Writer
  readers : ℕ → Option Snapshot
  calls : ℕ → Option Call

/-- The steps of the transactions. -/
inductive Action
  | begin (w : ℕ) (writes : List (RelationId × (Option (List Tuple) → List Tuple)))
      (destroys : List RelationId)
  | bump (w : ℕ) (rel : RelationId)
  | commit (w : ℕ)
  | abort (w : ℕ)
  | evict (rel : RelationId)
  | openRead (r : ℕ)
  | witness (c r : ℕ) (rel : RelationId)
  | get (c : ℕ)
  | shouldBuild (c : ℕ)
  | install (c : ℕ)
  | clearMiss (c : ℕ)
  | scanFails (c : ℕ)

namespace Db

variable (db : Db)

/-- The generation of a relation. -/
def mark (rel : RelationId) : ℕ := db.segments.witnessAfterSnapshot rel

/-- A call moves on. -/
def setStage (c : ℕ) (call : Call) (stage : Stage) : Db :=
  { db with calls := update db.calls c (some { call with stage := stage }) }

/-- The steps of a writer: `run_query` with `bump_before_commit`, `commit_write` and `evict`. -/
def stepWriter (w : ℕ) (writer : Writer) : Action → Option Db
  | .bump _ rel =>
    if rel ∈ writer.toBump then
      let writer := { writer with toBump := writer.toBump.filter (· ≠ rel) }
      some { db with
        segments := db.segments.bumpBeforeCommit rel
        writers := update db.writers w (some writer) }
    else none
  | .commit _ =>
    -- A write to a relation another transaction destroyed conflicts.
    if writer.toBump = [] ∧ ∀ rel ∈ writer.touched, db.retired rel = false then
      some { db with
        committed := writer.apply db.committed
        retired := fun rel => db.retired rel || decide (rel ∈ writer.destroys)
        toEvict := db.toEvict ++ writer.destroys
        writers := update db.writers w none }
    else none
  | .abort _ => some { db with writers := update db.writers w none }
  | _ => none

/-- The steps of a call of `segment_at` after its witness. -/
def stepCall (c : ℕ) (call : Call) : Action → Option Db
  | .get _ =>
    match call.stage with
    | .witnessed live =>
      match db.segments.get call.rel live with
      | .ok segment => some (db.setStage c call (.served segment))
      | .error _ => some (db.setStage c call (.missed live))
    | _ => none
  | .shouldBuild _ =>
    match call.stage with
    | .missed live =>
      let (build, residency) := db.segments.residency.shouldBuild call.rel live
      let db := { db with segments := { db.segments with residency := residency } }
      some (db.setStage c call (if build then .building live else .declined))
    | _ => none
  | .install _ =>
    match call.stage with
    | .building live =>
      match Segment.build call.rows with
      | none => some (db.setStage c call .declined)
      | some segment =>
        let db := { db with segments := db.segments.install call.rel segment live }
        some (db.setStage c call (.installing segment))
    | _ => none
  | .clearMiss _ =>
    match call.stage with
    | .installing segment =>
      let residency := db.segments.residency.clearMiss call.rel
      let db := { db with segments := { db.segments with residency := residency } }
      some (db.setStage c call (.served segment))
    | _ => none
  | .scanFails _ =>
    match call.stage with
    | .building _ => some (db.setStage c call .declined)
    | _ => none
  | _ => none

/-- One step of one transaction. -/
def step (action : Action) : Option Db :=
  match action with
  | .begin w writes destroys =>
    if db.writers w = none then
      let writer : Writer := ⟨writes, destroys, writes.map Prod.fst⟩
      some { db with writers := update db.writers w (some writer) }
    else none
  | .bump w _ | .commit w | .abort w => (db.writers w).bind fun writer =>
    db.stepWriter w writer action
  | .evict rel =>
    if rel ∈ db.toEvict then
      some { db with
        segments := db.segments.evict rel
        toEvict := db.toEvict.filter (· ≠ rel) }
    else none
  | .openRead r => some { db with readers := update db.readers r (some db.committed) }
  | .witness c r rel =>
    (db.readers r).bind fun snapshot => (snapshot rel).map fun rows =>
      { db with calls := update db.calls c (some ⟨rel, rows, .witnessed (db.mark rel)⟩) }
  | .get c | .shouldBuild c | .install c | .clearMiss c | .scanFails c =>
    (db.calls c).bind fun call => db.stepCall c call action

end Db

end Kyzo

import Kyzo.Lib.BitemporalWrites
import Kyzo.Lib.Runs
import Kyzo.Store.Versions

/-!
# Plain indices

The mutation paths of `session/admit.rs` and the creation of a plain index in `session/ops.rs`.
Every row of a mutation is written at a valid instant and at the stamp of its transaction; a plain
index gets a version for the row that governed the written instant and one for the new row.
-/

namespace Kyzo

open Version

/-! ## Rows and mappers -/

/-- The width of a relation: its key columns and all its columns. -/
structure Schema where
  keys : ℕ
  arity : ℕ
  keys_le : keys ≤ arity

/-- The logical row of a version, without its time slots. -/
def Version.logicalRow (r : Version) : Tuple := r.fact ++ r.payload

/-- `project_mapper`: the columns of an index row, or none past the row's end. -/
def projectMapper (mapper : List ℕ) (row : Tuple) : Option Tuple := mapper.mapM (row[·]?)

/-- The mapper of `create_plain_index`: the chosen columns, then the key columns they leave out. -/
def mapperOf (schema : Schema) (cols : List ℕ) : List ℕ :=
  cols ++ (List.range schema.keys).filter (· ∉ cols)

/-! ## The base relation and its index -/

/-- A transaction under way: fresh, with mutations, or the one that creates the index. -/
inductive TxStage
  | fresh
  | writing
  | indexed
  deriving DecidableEq

/-- A plain index: its mapper, the stamp of its creation and its versions. -/
structure PlainIndex where
  mapper : List ℕ
  created : Int64
  versions : List Version

/-- The versions of a base relation, its plain index if there is one, and the stamp of the
transaction under way. -/
structure Mirror where
  base : List Version
  index : Option PlainIndex
  stamp : Int64
  stage : TxStage

/-- The relations of a base and its index. -/
structure MirrorIds where
  baseId : RelationId
  indexId : RelationId

/-- `MAX_VALIDITY_TS`, the latest instant and system time. -/
def maxValidityTs : Int64 := Int64.maxValue

/-- One row of a mutation, with its valid instant.  `put` is `:put`, or `:insert` if the key must be
absent; `rm` is `:rm`, or `:delete` if it must be present; `update` gives the value columns it
sets. -/
inductive RowOp
  | put (mustBeAbsent : Bool) (row : Tuple) (valid : Int64)
  | update (key : Tuple) (vals : List (Option DataValue)) (valid : Int64)
  | rm (mustBePresent : Bool) (key : Tuple) (valid : Int64)

namespace RowOp

/-- The instant of a row. -/
def valid : RowOp → Int64
  | put _ _ valid | update _ _ valid | rm _ _ valid => valid

/-- The key of a row. -/
def key (schema : Schema) : RowOp → Tuple
  | put _ row _ => row.take schema.keys
  | update key _ _ | rm _ key _ => key

end RowOp

namespace Mirror

variable (ids : MirrorIds) (schema : Schema)

/-- `RelationHandle::current_row`: the row of a key that governs an instant, by the newest system
time. -/
def currentRow (versions : List Version) (key : Tuple) (valid : Int64) : Option Tuple :=
  ((timeline.holding valid.toInt maxValidityTs.toInt versions).find?
    (fun r => r.fact = key)).map logicalRow

variable (m : Mirror)

/-- A version of the base relation at the stamp of the transaction. -/
def baseVersion (row : Tuple) (polarity : ClaimPolarity) (valid : Int64) : Version :=
  ⟨ids.baseId, row.take schema.keys, valid, m.stamp, polarity, row.drop schema.keys⟩

/-- A version of an index row, all of whose columns are key columns. -/
def indexVersion (fact : Tuple) (polarity : ClaimPolarity) (valid stamp : Int64) : Version :=
  ⟨ids.indexId, fact, valid, stamp, polarity, []⟩

/-- `plain_index_write`: a version of the projected row. -/
def plainIndexWrite (idx : PlainIndex) (row : Tuple) (polarity : ClaimPolarity)
    (valid stamp : Int64) : Option PlainIndex :=
  (projectMapper idx.mapper row).map fun fact =>
    { idx with
      versions := timeline.write (indexVersion ids fact polarity valid stamp) idx.versions }

/-- The index write of a row that may be missing. -/
def indexWriteOf (idx : PlainIndex) (row : Option Tuple) (polarity : ClaimPolarity)
    (valid stamp : Int64) : Option PlainIndex :=
  match row with
  | some row => plainIndexWrite ids idx row polarity valid stamp
  | none => some idx

/-- `update_indices`: the old row is retracted, then the new one asserted. -/
def updateIndices (new old : Option Tuple) (valid : Int64) : Option Mirror :=
  match m.index with
  | none => some m
  | some idx =>
    ((indexWriteOf ids idx old .retract valid m.stamp).bind fun idx =>
      indexWriteOf ids idx new .assert valid m.stamp).map fun idx => { m with index := some idx }

/-- `put_routed` of a base version. -/
def putBase (r : Version) : Mirror :=
  { m with base := timeline.write r m.base, stage := .writing }

/-- The row of an update: the columns it sets, the others carried from the stored row. -/
def carryRow (key original : Tuple) (vals : List (Option DataValue)) : Option Tuple :=
  (vals.zipIdx.mapM fun (e : Option DataValue × ℕ) => e.1.orElse fun _ => original[e.2]?).map
    (key ++ ·)

/-- The end of a mutation's row: the index follows, then the base version is put. -/
def writeRow (row : Tuple) (polarity : ClaimPolarity) (new old : Option Tuple)
    (valid : Int64) : Option Mirror :=
  (updateIndices ids m new old valid).map fun m =>
    m.putBase (baseVersion ids schema m row polarity valid)

/-- One row of a mutation.  A put that repeats the governing row, and an rm of a key without one,
write no index version. -/
def mutate : RowOp → Option Mirror
  | .put mustBeAbsent row valid =>
    let current := currentRow m.base (row.take schema.keys) valid
    if row.length ≠ schema.arity ∨ (mustBeAbsent ∧ current.isSome) then none
    else if current = some row then writeRow ids schema m row .assert none none valid
    else writeRow ids schema m row .assert (some row) current valid
  | .update key vals valid =>
    if key.length ≠ schema.keys ∨ vals.length ≠ schema.arity - schema.keys then none
    else (currentRow m.base key valid).bind fun old =>
      (carryRow key (old.drop schema.keys) vals).bind fun row =>
        writeRow ids schema m row .assert (some row) (some old) valid
  | .rm mustBePresent key valid =>
    let current := currentRow m.base key valid
    if key.length ≠ schema.keys ∨ (mustBePresent ∧ current.isNone) then none
    else writeRow ids schema m key .retract none current valid

/-- `attach_and_backfill` for a plain index: the rows current at the latest instant, at the stamp on
both axes. -/
def backfill (mapper : List ℕ) : Option PlainIndex :=
  ((timeline.holding maxValidityTs.toInt maxValidityTs.toInt m.base).map
    logicalRow).foldlM
      (fun idx row => plainIndexWrite ids idx row .assert m.stamp m.stamp) ⟨mapper, m.stamp, []⟩

/-- The steps: a transaction starts with a later stamp; rows are mutated at it; the index is created
by a transaction of its own. -/
inductive Step
  | begin (stamp : Int64)
  | mutate (op : RowOp)
  | createIndex (cols : List ℕ)

/-- One step. -/
def step : Step → Option Mirror
  | .begin stamp => if m.stamp < stamp ∧ stamp < maxValidityTs then
      some { m with stamp := stamp, stage := .fresh } else none
  | .mutate op =>
    if m.stage = .indexed ∨ ¬ op.valid < maxValidityTs then none else m.mutate ids schema op
  | .createIndex cols =>
    if m.stage = .fresh ∧ m.index = none ∧ cols.Nodup ∧ ∀ c ∈ cols, c < schema.arity then
      (m.backfill ids (mapperOf schema cols)).map fun idx =>
        { m with index := some idx, stage := .indexed }
    else none

/-- A new base relation. -/
def empty (stamp : Int64) : Mirror := ⟨[], none, stamp, .writing⟩

end Mirror

end Kyzo

import Kyzo.Lib.Runs
import Kyzo.Session.Catalog

/-!
# Integrity constraints

`session/constraint.rs` with the paths that reach it: the mutation pipeline of `session/admit.rs`
with its triggers, the script and system operations of `session/db.rs` and the index lifecycle of
`session/ops.rs`.  A constraint is a query that must derive nothing; it is recorded in the catalog
row of every stored relation it reads, and a transaction evaluates the constraints of the relations
it mutates before it commits.

The evaluator, the row writes and the backfill of an index are parameters: what they do with the
relations they may touch is free.
-/

namespace Kyzo

variable {K M Env Options : Type}

/-! ## What a query reads -/

/-- What a query can read of a relation. -/
structure RelationView (K M : Type) where
  metadata : StoredRelationMetadata
  indices : List (IndexRef M)
  keyspaceKind : KeyspaceKind
  keyspace : K

/-- The view of a relation. -/
def StoredRelation.view (r : StoredRelation K M) : RelationView K M :=
  ⟨r.metadata, r.indices, r.keyspaceKind, r.keyspace⟩

/-- The relations a query can read. -/
abbrev Surface (K M : Type) := String → Option (RelationView K M)

/-- The surface of a catalog. -/
def Catalog.surface (cat : Catalog K M) : Surface K M :=
  fun name => cat[name]?.map StoredRelation.view

/-- A read of a relation cannot tell the surfaces apart: they have the same relation there, and the
same relations of its indices. -/
def Surface.SameAt (s t : Surface K M) (name : String) : Prop :=
  s name = t name ∧
    ∀ v, s name = some v → ∀ idx ∈ v.indices, ∀ m ∈ idx.relationNames name, s m = t m

/-- What the writes of a mutation leave: the keyspaces of the relation and of its indices, and the
rows its triggers see. -/
structure WrittenRows (K : Type) where
  own : K
  indices : List K
  newTuples : List Tuple
  oldTuples : List Tuple

/-- The parts of the engine that the enforcement of constraints rests on.  `Env` is what the
operators of a program read beside the relations, the clock and the random draws; `Options` is the
budget of a session. -/
structure Engine (K M Env Options : Type) where
  /-- The keyspace of a new relation. -/
  emptyKeyspace : K
  derives : Env → Surface K M → InputProgram → List Tuple
  /-- A program reads the relations of its read set, and their indices. -/
  derives_local : ∀ env s t prog, (∀ n ∈ storedReadSet prog, s.SameAt t n) →
    derives env s prog = derives env t prog
  compileAndEval : Env → Options → Catalog K M → InputProgram → Except Refusal (List Tuple)
  /-- An evaluation that is not refused has the rows the program derives. -/
  compileAndEval_eq : ∀ env options cat prog rows, prog.outOpts.limit = none →
    prog.outOpts.offset = none → compileAndEval env options cat prog = .ok rows →
      rows = derives env cat.surface prog
  finalizeRows : InputProgram → List Tuple → Except Refusal (List Tuple)
  /-- `make_const_rule`, for the new and the old rows of a mutation -/
  makeConstRules : List Tuple → List Tuple → InputProgram → Except Refusal InputProgram
  /-- `ensure_in_relation` and `ensure_not_in_relation` -/
  ensureRows : Env → RelationOp → InputRelationHandle → StoredRelation K M → List Tuple →
    Except Refusal Unit
  /-- The writes of `put_into_relation`, `update_in_relation` and `remove_from_relation`, from the
  relation and the keyspaces of its indices. -/
  writeRows : Env → RelationOp → InputRelationHandle → WriteValidity → StoredRelation K M → List K →
    List Tuple → Except Refusal (WrittenRows K)
  indexMetadata : StoredRelation K M → IndexRef M → String → StoredRelationMetadata
  /-- The backfill of `attach_and_backfill`: the keyspaces of the relations of a new index. -/
  backfill : Env → StoredRelation K M → IndexRef M → Except Refusal (List K)

/-! ## Transactions -/

/-- `SessionTx`: the catalog as the transaction sees it, and the constraints noted by its
mutations. -/
structure SessionTx (K M : Type) where
  store : Catalog K M
  pendingConstraints : Std.TreeMap String ConstraintRef

namespace SessionTx

def newWrite (cat : Catalog K M) : SessionTx K M := ⟨cat, ∅⟩

def noteConstraints (tx : SessionTx K M) (handle : RelationHandle M) : SessionTx K M :=
  { tx with
    pendingConstraints :=
      handle.constraints.foldl (fun pending k => pending.insertIfNew k.name k)
        tx.pendingConstraints }

end SessionTx

namespace Catalog

variable (cat : Catalog K M)

/-- A write into the keyspace of a relation. -/
def setKeyspace (name : String) (keyspace : K) : Catalog K M :=
  cat.modify name fun r => { r with keyspace := keyspace }

/-- Writes into the keyspaces of several relations. -/
def setKeyspaces (names : List String) (keyspaces : List K) : Catalog K M :=
  (names.zip keyspaces).foldl (fun cat e => cat.setKeyspace e.1 e.2) cat

/-- The keyspaces of the indices of a relation. -/
def indexKeyspaces (names : List String) : Except Refusal (List K) :=
  names.mapM fun name => (cat.getRelation name).map StoredRelation.keyspace

end Catalog

/-! ## The mutation pipeline -/

def maxTriggerCascadeDepth : ℕ := 32

/-- How a trigger runs. -/
abbrev RunQuery (K M : Type) := SessionTx K M → InputProgram → Except Refusal (SessionTx K M)

/-- The triggers of a mutation fire in their order; none fires at the ceiling of the cascade. -/
def fireTriggers (run : Option (RunQuery K M)) (name : String)
    (inject : InputProgram → Except Refusal InputProgram) (tx : SessionTx K M)
    (triggers : List InputProgram) : Except Refusal (SessionTx K M) :=
  match triggers, run with
  | [], _ => .ok tx
  | _ :: _, none => .error (.triggerCascadeTooDeep name maxTriggerCascadeDepth)
  | triggers, some run => triggers.foldlM (fun tx prog => (inject prog).bind (run tx)) tx

/-- The access level a mutation needs, and the name of its rung. -/
def RelationOp.access : RelationOp → AccessLevel × String
  | .create | .replace | .put | .insert => (.protectedLevel, "row insertion")
  | .update => (.protectedLevel, "row update")
  | .rm | .delete => (.protectedLevel, "row removal")
  | .ensure | .ensureNot => (.readOnly, "row check")

/-- The operations that only read. -/
def RelationOp.isCheck : RelationOp → Bool
  | .ensure | .ensureNot => true
  | _ => false

/-- The triggers a mutation fires. -/
def RelationOp.triggers (h : RelationHandle M) : RelationOp → List InputProgram
  | .rm | .delete => h.rmTriggers
  | _ => h.putTriggers

variable (e : Engine K M Env Options) (env : Env) (options : Options)

/-- The rows of a mutation are written, its indices follow, then its triggers fire. -/
def mutateRelation (run : Option (RunQuery K M)) (tx : SessionTx K M) (rel : StoredRelation K M)
    (op : RelationOp) (target : InputRelationHandle) (writeVld : WriteValidity)
    (rows : List Tuple) : Except Refusal (SessionTx K M) := do
  let name := target.name.text
  if rel.accessLevel < op.access.1 then
    throw (.insufficientAccessLevel name op.access.2 rel.accessLevel)
  if op.isCheck then
    let _ ← e.ensureRows env op target rel rows
    pure tx
  else
    let names := rel.indexNames name
    let keyspaces ← tx.store.indexKeyspaces names
    let written ← e.writeRows env op target writeVld rel keyspaces rows
    let store := (tx.store.setKeyspace name written.own).setKeyspaces names written.indices
    fireTriggers run name (e.makeConstRules written.newTuples written.oldTuples)
      { tx with store := store }
        (if written.newTuples = [] then [] else op.triggers rel.toRelationHandle)

/-- The first half of `:replace`: the replace triggers fire, the relation is destroyed and its other
triggers are carried over. -/
def replaceRelation (run : Option (RunQuery K M)) (triggerDepth : ℕ) (tx : SessionTx K M)
    (name : String) : Except Refusal (SessionTx K M × List InputProgram × List InputProgram) := do
  if 0 < triggerDepth then throw (.replaceInTrigger name)
  match tx.store[name]? with
  | none => pure (tx, [], [])
  | some old =>
    if old.indices ≠ [] then throw (.replaceRelationWithIndices name)
    if old.accessLevel < .normal then
      throw (.insufficientAccessLevel name "relation replacement" old.accessLevel)
    let tx ← fireTriggers run name pure tx old.replaceTriggers
    let store ← tx.store.destroyRelation name
    pure ({ tx with store := store }, old.putTriggers, old.rmTriggers)

/-- The relation of `:create` or `:replace`. -/
def createTarget (tx : SessionTx K M) (target : InputRelationHandle)
    (puts rms : List InputProgram) : Except Refusal (SessionTx K M) := do
  let handle := RelationHandle.newFromInput target.metadata .facts
  let store ← tx.store.createRelation target.name.text
    { handle with putTriggers := puts, rmTriggers := rms } e.emptyKeyspace
  pure { tx with store := store }

section

variable (run : Option (RunQuery K M)) (triggerDepth : ℕ) (tx : SessionTx K M)

/-- The relation a mutation works on is there: `:replace` destroys and creates it, `:create` creates
it. -/
def prepareTarget
    (op : RelationOp) (target : InputRelationHandle) : Except Refusal (SessionTx K M) :=
  match op with
  | .replace => (replaceRelation run triggerDepth tx target.name.text).bind fun r =>
      createTarget e r.1 target r.2.1 r.2.2
  | .create => createTarget e tx target [] []
  | _ => .ok tx

def executeRelation (rows : List Tuple) (op : RelationOp) (target : InputRelationHandle)
    (writeVld : WriteValidity) : Except Refusal (SessionTx K M) := do
  let tx ← prepareTarget e run triggerDepth tx op target
  let rel ← tx.store.getRelation target.name.text
  let tx := if op.isCheck then tx else tx.noteConstraints rel.toRelationHandle
  mutateRelation e env run tx rel op target writeVld rows

end

/-- The preconditions of `run_query` on the output relation. -/
def checkTarget (op : RelationOp) (name : String) (present : Bool) : Except Refusal Unit :=
  match op with
  | .create => if present then
      .error (.storeRelationPrecondition ("cannot :create relation '" ++ name ++
        "': it already exists"))
    else .ok ()
  | .replace => .ok ()
  | _ => if present then .ok ()
    else .error (.storeRelationPrecondition ("relation '" ++ name ++ "' does not exist"))

/-- `run_query`, with its triggers run by `run`. -/
def runQueryWith (run : Option (RunQuery K M)) (triggerDepth : ℕ) : RunQuery K M :=
  fun tx prog => do
  match prog.outOpts.storeRelation with
  | none =>
    let rows ← e.compileAndEval env options tx.store prog
    let _ ← e.finalizeRows prog rows
    pure tx
  | some (target, op, writeVld) =>
    let _ ← checkTarget op target.name.text (tx.store.contains target.name.text)
    let rows ← e.compileAndEval env options tx.store prog
    let rows ← e.finalizeRows prog rows
    executeRelation e env run triggerDepth tx rows op target writeVld

/-- `run_query` with so many levels of triggers left below the ceiling. -/
def runQuery : ℕ → RunQuery K M
  | 0 => runQueryWith e env options none maxTriggerCascadeDepth
  | left + 1 => runQueryWith e env options (some (runQuery left))
      (maxTriggerCascadeDepth - (left + 1))

/-! ## The denial check -/

def witnessCap : ℕ := 8

def validateConstraintPurity (name : String) (opts : QueryOutOptions) : Except Refusal Unit := do
  if opts.storeRelation.isSome then
    throw (.constraintNotPure name "its body mutates a stored relation (:put/:rm/:create/…)")
  if opts.assertion.isSome then
    throw (.constraintNotPure name
      "its body uses :assert (the denial semantics already assert emptiness)")
  if opts.limit.isSome || opts.offset.isSome then
    throw (.constraintNotPure name
      "its body uses :limit/:offset, which would truncate violation detection")
  if opts.timeout.isSome || opts.sleep.isSome then
    throw (.constraintNotPure name
      ("its body uses :timeout/:sleep (a denial rule runs under the session budget; a per-body " ++
        "deadline is meaningless and an unbounded value would overflow the duration conversion)"))

/-- `eval_constraint_body`: the rows of the body, sorted and without repetitions. -/
def evalConstraintBody (cat : Catalog K M) (prog : InputProgram) : Except Refusal (List Tuple) :=
  (e.compileAndEval env options cat prog).map fun rows =>
    (rows.mergeSort fun a b => compare a b ≠ .gt).destutter (· ≠ ·)

/-- The check of one noted constraint. -/
def checkConstraint (cat : Catalog K M) (noted : String × ConstraintRef) : Except Refusal Unit := do
  validateConstraintPurity noted.1 noted.2.program.outOpts
  let witnesses ← evalConstraintBody e env options cat noted.2.program
  if witnesses ≠ [] then
    throw (.constraintViolation noted.1 witnesses.length (witnesses.take witnessCap))

def enforceConstraints (tx : SessionTx K M) : Except Refusal Unit :=
  tx.pendingConstraints.toList.forM (checkConstraint e env options tx.store)

/-- `execute_single`: the catalog after a script. -/
def executeSingle (cat : Catalog K M) (prog : InputProgram) : Except Refusal (Catalog K M) :=
  match prog.outOpts.storeRelation with
  | none => .ok cat
  | some (target, _, _) => do
    if isTempRelationName target.name.text then
      throw (.tempRelationNotReachable target.name.text)
    let tx ← runQuery e env options maxTriggerCascadeDepth (.newWrite cat) prog
    let _ ← enforceConstraints e env options tx
    pure tx.store

/-! ## Constraints in the catalog -/

/-- Whether a relation carries a constraint of a name. -/
def StoredRelation.carries (name : String) (r : StoredRelation K M) : Bool :=
  r.constraints.any fun k => k.name = name

/-- The constraint is recorded in the row of a relation. -/
def attachTo (k : ConstraintRef) (cat : Catalog K M) (rel : String) :
    Except Refusal (Catalog K M) := do
  let handle ← cat.getRelation rel
  if handle.accessLevel < .protectedLevel then
    throw (.insufficientAccessLevel rel "create constraint" handle.accessLevel)
  pure (cat.insert rel { handle with
    constraints := (handle.constraints ++ [k]).mergeSort fun a b => compare a.name b.name ≠ .gt })

def attachConstraint (cat : Catalog K M) (k : ConstraintRef) : Except Refusal (Catalog K M) := do
  match cat.toList.find? fun r => r.2.carries k.name with
  | some (rel, _) => throw (.constraintNameTaken k.name rel)
  | none =>
    let witnesses ← evalConstraintBody e env options cat k.program
    if witnesses ≠ [] then
      throw (.constraintRejectedOnCreation k.name witnesses.length (witnesses.take witnessCap))
    (storedReadSet k.program).toList.foldlM (attachTo k) cat

/-- `sys_create_constraint`, with the body parsed. -/
def sysCreateConstraint (cat : Catalog K M) (k : ConstraintRef) : Except Refusal (Catalog K M) := do
  validateConstraintPurity k.name k.program.outOpts
  if (storedReadSet k.program).isEmpty then throw (.constraintReadsNothing k.name)
  match (storedReadSet k.program).toList.find? isTempRelationName with
  | some rel => throw (.constraintOnTempRelation k.name rel)
  | none => attachConstraint e env options cat k

def detachConstraint (cat : Catalog K M) (name : String) : Except Refusal (Catalog K M) :=
  match cat.toList.find? fun r => r.2.carries name && r.2.accessLevel < .protectedLevel with
  | some (rel, r) => .error (.insufficientAccessLevel rel "drop constraint" r.accessLevel)
  | none =>
    if cat.toList.any fun r => r.2.carries name then
      .ok (cat.map fun _ r => { r with constraints := r.constraints.filter fun k => k.name ≠ name })
    else .error (.noSuchConstraint name)

/-! ## Indices -/

/-- What the keyspaces of an index hold. -/
def IndexKind.keyspaceKind : IndexKind M → KeyspaceKind
  | .plain _ | .temporal => .facts
  | .hnsw _ | .fts _ | .lsh _ _ => .algorithmState

/-- The relation of an index is created. -/
def createIndexRelation (base : StoredRelation K M) (ref : IndexRef M) (cat : Catalog K M)
    (name : String) : Except Refusal (Catalog K M) :=
  cat.createRelation name (.newFromInput (e.indexMetadata base ref name) ref.kind.keyspaceKind)
    e.emptyKeyspace

def attachAndBackfill (cat : Catalog K M) (rel : CompoundIdent) (ref : IndexRef M) :
    Except Refusal (Catalog K M) := do
  let base ← cat.getRelation rel.text
  if base.indices.any fun r => r.name = ref.name then
    throw (.indexLifecycle
      ("relation '" ++ rel.text ++ "' already has an index named '" ++ ref.name ++ "'"))
  let cat ← (ref.relationNames rel.text).foldlM (createIndexRelation e base ref) cat
  let base := { base with
    indices := (base.indices ++ [ref]).mergeSort fun a b => compare a.name b.name ≠ .gt }
  let keyspaces ← e.backfill env base ref
  pure (Catalog.setKeyspaces (cat.insert rel.text base) (ref.relationNames rel.text) keyspaces)

def removeIndex (cat : Catalog K M) (rel : CompoundIdent) (idx : String) :
    Except Refusal (Catalog K M) := do
  let base ← cat.getRelation rel.text
  match base.indices.find? fun r => r.name = idx with
  | none =>
    throw (.indexLifecycle ("relation '" ++ rel.text ++ "' has no index named '" ++ idx ++ "'"))
  | some ref =>
    let cat ← (ref.relationNames rel.text).foldlM Catalog.destroyRelation cat
    pure (cat.insert rel.text { base with indices := base.indices.eraseP fun r => r.name = idx })

/-! ## Scripts and system operations -/

/-- The scripts and system operations that can change the catalog. -/
inductive DbAction (M Env Options : Type) where
  | script (env : Env) (options : Options) (prog : InputProgram)
  | createConstraint (env : Env) (options : Options) (k : ConstraintRef)
  | removeConstraint (name : String)
  | removeRelation (names : List CompoundIdent)
  | renameRelation (pairs : List (CompoundIdent × CompoundIdent))
  | setTriggers (name : CompoundIdent) (puts rms replaces : List InputProgram)
  | setAccessLevel (names : List CompoundIdent) (level : AccessLevel)
  | createIndex (env : Env) (rel : CompoundIdent) (ref : IndexRef M)
  | removeIndex (rel : CompoundIdent) (idx : String)

/-- `run_script_with`: the catalog after an accepted script or system operation. -/
def runAction (cat : Catalog K M) : DbAction M Env Options → Except Refusal (Catalog K M)
  | .script env options prog => executeSingle e env options cat prog
  | .createConstraint env options k => sysCreateConstraint e env options cat k
  | .removeConstraint name => detachConstraint cat name
  | .removeRelation names => names.foldlM (fun cat name => cat.destroyRelation name.text) cat
  | .renameRelation pairs => pairs.foldlM (fun cat p => cat.renameRelation p.1 p.2) cat
  | .setTriggers name puts rms replaces => cat.setRelationTriggers name puts rms replaces
  | .setAccessLevel names level => names.foldlM (fun cat name => cat.setAccessLevel level name) cat
  | .createIndex env rel ref => attachAndBackfill e env cat rel ref
  | .removeIndex rel idx => removeIndex cat rel idx

/-- One accepted operation. -/
def dbStep (cat : Catalog K M) (a : DbAction M Env Options) : Option (Catalog K M) :=
  (runAction e cat a).toOption

end Kyzo

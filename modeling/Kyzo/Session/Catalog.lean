import Kyzo.Plan.InputProgram
import Kyzo.Store.Backup

/-!
# The catalog

`session/catalog.rs`: the relation handles and the operations that change them.  The row of a
relation is kept together with its keyspace, which a rename moves along with it.  The temp store of
a session is left out: a name that starts with an underscore is refused wherever a relation is
created.
-/

namespace Kyzo

/-! ## Handles -/

/-- `AccessLevel`, in its order. -/
inductive AccessLevel where
  | hidden
  | readOnly
  | protectedLevel
  | normal

namespace AccessLevel

/-- The position in the order. -/
def rank : AccessLevel → ℕ
  | hidden => 0
  | readOnly => 1
  | protectedLevel => 2
  | normal => 3

instance : LT AccessLevel := ⟨fun a b => a.rank < b.rank⟩

instance (a b : AccessLevel) : Decidable (a < b) := inferInstanceAs (Decidable (a.rank < b.rank))

end AccessLevel

/-- `IndexKind`, over the manifests of the search indices. -/
inductive IndexKind (M : Type) where
  | plain (mapper : List ℕ)
  | temporal
  | hnsw (manifest : M)
  | fts (manifest : M)
  | lsh (manifest : M) (inverse : String)

structure IndexRef (M : Type) where
  name : String
  kind : IndexKind M

structure ConstraintRef where
  name : String
  program : InputProgram

/-- `RelationHandle`, without the id of its keyspace and the description; the name is the key of the
catalog row. -/
structure RelationHandle (M : Type) where
  metadata : StoredRelationMetadata
  putTriggers : List InputProgram
  rmTriggers : List InputProgram
  replaceTriggers : List InputProgram
  accessLevel : AccessLevel
  indices : List (IndexRef M)
  constraints : List ConstraintRef
  keyspaceKind : KeyspaceKind

/-- A relation: its handle and the contents of its keyspace. -/
structure StoredRelation (K M : Type) extends RelationHandle M where
  keyspace : K

/-- The stored relations by name. -/
abbrev Catalog (K M : Type) := Std.TreeMap String (StoredRelation K M)

variable {K M : Type}

namespace IndexRef

variable (base : String) (r : IndexRef M)

def relationName : String := base ++ ":" ++ r.name

/-- The relations behind an index: its own, and the inverse one of an LSH index. -/
def relationNames : List String :=
  match r.kind with
  | .lsh _ inverse => [r.relationName base, base ++ ":" ++ inverse]
  | _ => [r.relationName base]

end IndexRef

/-- The relations of all the indices of a relation. -/
def RelationHandle.indexNames (h : RelationHandle M) (base : String) : List String :=
  h.indices.flatMap fun idx => idx.relationNames base

def RelationHandle.newFromInput (metadata : StoredRelationMetadata) (kind : KeyspaceKind) :
    RelationHandle M :=
  ⟨metadata, [], [], [], .normal, [], [], kind⟩

/-! ## Refusals -/

/-- What a script or a system operation is refused with. -/
inductive Refusal where
  | relNotFound (name : String)
  | relNameConflict (name : String)
  | relationHasIndices (name op : String)
  | relationHasConstraints (name op constraint : String)
  | insufficientAccessLevel (name op : String) (level : AccessLevel)
  | tempRelationNotRoutable (name : String)
  | tempRelationNotReachable (name : String)
  | storeRelationPrecondition (message : String)
  | replaceInTrigger (name : String)
  | replaceRelationWithIndices (name : String)
  | triggerCascadeTooDeep (name : String) (ceiling : ℕ)
  | indexLifecycle (message : String)
  | constraintViolation (name : String) (total : ℕ) (witnesses : List Tuple)
  | constraintRejectedOnCreation (name : String) (total : ℕ) (witnesses : List Tuple)
  | constraintNotPure (name reason : String)
  | constraintReadsNothing (name : String)
  | constraintOnTempRelation (name relation : String)
  | constraintNameTaken (name relation : String)
  | noSuchConstraint (name : String)
  /-- A refusal of the evaluation or of the row writes. -/
  | other (message : String)

/-! ## Operations on rows of the catalog -/

namespace Catalog

variable (cat : Catalog K M)

def getRelation (name : String) : Except Refusal (StoredRelation K M) :=
  match cat[name]? with
  | some rel => .ok rel
  | none => .error (.relNotFound name)

/-- `create_relation`: a new row over an empty keyspace. -/
def createRelation (name : String) (handle : RelationHandle M) (keyspace : K) :
    Except Refusal (Catalog K M) := do
  if isTempRelationName name then throw (.tempRelationNotRoutable name)
  if cat.contains name then throw (.relNameConflict name)
  pure (cat.insert name { handle with keyspace := keyspace })

def destroyRelation (name : String) : Except Refusal (Catalog K M) := do
  let store ← cat.getRelation name
  if store.indices ≠ [] then throw (.relationHasIndices name "remove")
  match store.constraints with
  | k :: _ => throw (.relationHasConstraints name "remove" k.name)
  | [] =>
    if store.accessLevel < .normal then
      throw (.insufficientAccessLevel name "relation removal" store.accessLevel)
    pure (cat.erase name)

def renameRelation (old new : CompoundIdent) : Except Refusal (Catalog K M) := do
  if isTempRelationName old.text || isTempRelationName new.text then
    throw (.tempRelationNotRoutable (old.text ++ " -> " ++ new.text))
  if cat.contains new.text then throw (.relNameConflict new.text)
  let rel ← cat.getRelation old.text
  if rel.indices ≠ [] then throw (.relationHasIndices old.text "rename")
  match rel.constraints with
  | k :: _ => throw (.relationHasConstraints old.text "rename" k.name)
  | [] =>
    if rel.accessLevel < .normal then
      throw (.insufficientAccessLevel old.text "renaming relation" rel.accessLevel)
    pure ((cat.erase old.text).insert new.text rel)

def setAccessLevel (level : AccessLevel) (name : CompoundIdent) : Except Refusal (Catalog K M) := do
  let rel ← cat.getRelation name.text
  pure (cat.insert name.text { rel with accessLevel := level })

/-- `set_relation_triggers`, with the triggers parsed. -/
def setRelationTriggers (name : CompoundIdent)
    (puts rms replaces : List InputProgram) : Except Refusal (Catalog K M) := do
  if isTempRelationName name.text then throw (.tempRelationNotRoutable name.text)
  let rel ← cat.getRelation name.text
  if rel.accessLevel < .protectedLevel then
    throw (.insufficientAccessLevel name.text "set triggers" rel.accessLevel)
  pure (cat.insert name.text
    { rel with putTriggers := puts, rmTriggers := rms, replaceTriggers := replaces })

end Catalog

/-! ## The relations a program reads -/

mutual

/-- `collect_atom`: the stored relations an atom reads. -/
def InputAtom.storedReads : InputAtom → List String
  | .relation inner => [inner.name.name]
  | .namedFieldRelation inner => [inner.name.name]
  | .search inner => [inner.relation.name]
  | .negation inner => inner.storedReads
  | .conjunction inner => InputAtom.storedReadsAll inner
  | .disjunction inner => InputAtom.storedReadsAll inner
  | .rule _ | .predicate _ | .unification _ => []

/-- The stored relations a list of atoms reads. -/
def InputAtom.storedReadsAll : List InputAtom → List String
  | [] => []
  | atom :: atoms => atom.storedReads ++ InputAtom.storedReadsAll atoms

end

/-- The stored relation an argument of a fixed rule reads. -/
def FixedRuleArg.storedReads : FixedRuleArg → List String
  | .stored name _ _ | .namedStored name _ _ => [name.name]
  | .inMem _ _ => []

/-- The stored relations a definition reads. -/
def InputInlineRulesOrFixed.storedReads : InputInlineRulesOrFixed → List String
  | .rules ruleset => ruleset.flatMap fun rule => InputAtom.storedReadsAll rule.body
  | .fixed apply => apply.ruleArgs.flatMap FixedRuleArg.storedReads

def storedReadSet (prog : InputProgram) : Std.TreeSet String :=
  .ofList (prog.iterAll.flatMap fun d => d.2.storedReads)

end Kyzo

import Mathlib.Data.List.TakeWhile
import Kyzo.Plan.Program

/-!
# Programs as they are parsed

`kyzo_model::program`: the bodies of rules with nested connectives, the output options of a query
and the program they make up.  Source spans and comments are left out, and so are the orderings of
the output and the options that only the engine of a search reads.
-/

namespace Kyzo

/-! ## Names of relations -/

/-- A name that the grammar's `compound_ident` or `underscore_ident` accepts where it matters here:
it has no colon, which only the names of index relations have. -/
structure CompoundIdent where
  text : String
  noColon : ':' ∉ text.toList

def isTempRelationName (name : String) : Bool := name.startsWith "_"

/-- The name of a relation up to its first colon: the base relation of an index relation. -/
def baseOf (name : String) : String := String.ofList (name.toList.takeWhile (· ≠ ':'))

/-! ## Bodies -/

structure InputRuleApplyAtom where
  name : Symbol
  args : List Expr

structure InputNamedFieldRelationApplyAtom where
  name : Symbol
  args : List (Symbol × Expr)
  validity : Option ValidityClause

structure InputRelationApplyAtom where
  name : Symbol
  args : List Expr
  validity : Option ValidityClause

/-- `SearchInput`, without the options of its modality. -/
structure SearchInput where
  relation : Symbol
  index : Symbol
  bindings : List (Symbol × Expr)
  query : Expr
  filter : Option Expr

inductive InputAtom where
  | rule (inner : InputRuleApplyAtom)
  | namedFieldRelation (inner : InputNamedFieldRelationApplyAtom)
  | relation (inner : InputRelationApplyAtom)
  | predicate (inner : Expr)
  | negation (inner : InputAtom)
  | conjunction (inner : List InputAtom)
  | disjunction (inner : List InputAtom)
  | unification (inner : Unification)
  | search (inner : SearchInput)

structure InputInlineRule where
  head : List Symbol
  aggr : List HeadAggrSlot
  body : List InputAtom

inductive InputInlineRulesOrFixed where
  | rules (rules : List InputInlineRule)
  | fixed (fixed : FixedRuleApply)

/-! ## Output options -/

/-- `ColumnDef`, by its name. -/
structure ColumnDef where
  name : String

structure StoredRelationMetadata where
  keys : List ColumnDef
  nonKeys : List ColumnDef

structure InputRelationHandle where
  name : CompoundIdent
  metadata : StoredRelationMetadata
  keyBindings : List Symbol
  depBindings : List Symbol

inductive RelationOp where
  | create
  | replace
  | put
  | insert
  | update
  | rm
  | delete
  | ensure
  | ensureNot

inductive WriteValidity where
  | now
  | fixed (valid : Int64)
  | perRow (expr : Expr)

inductive QueryAssertion where
  | assertNone
  | assertSome

structure QueryOutOptions where
  limit : Option ℕ
  offset : Option ℕ
  timeout : Option F64
  sleep : Option F64
  storeRelation : Option (InputRelationHandle × RelationOp × WriteValidity)
  assertion : Option QueryAssertion

/-- The options of a query that says nothing of its output. -/
def QueryOutOptions.default : QueryOutOptions := ⟨none, none, none, none, none, none⟩

/-! ## Programs -/

structure InputProgram where
  entryName : Symbol
  entry : InputInlineRulesOrFixed
  rules : Std.TreeMap Symbol InputInlineRulesOrFixed
  outOpts : QueryOutOptions
  disableMagicRewrite : Bool

def InputProgram.iterAll (p : InputProgram) : List (Symbol × InputInlineRulesOrFixed) :=
  p.rules.toList ++ [(p.entryName, p.entry)]

/-! ## Names of index relations -/

lemma baseOf_compound (n : CompoundIdent) : baseOf n.text = n.text := by
  have hall : n.text.toList.takeWhile (· ≠ ':') = n.text.toList :=
    List.takeWhile_eq_self_iff.mpr fun c hc => by
      rw [decide_eq_true_iff]
      rintro rfl
      exact n.noColon hc
  rw [baseOf, hall, String.ofList_toList]

lemma baseOf_append_colon (name suffix : String) :
    baseOf (name ++ ":" ++ suffix) = baseOf name := by
  have hcut (l m : List Char) :
      (l ++ ':' :: m).takeWhile (fun c => decide (c ≠ ':')) =
        l.takeWhile fun c => decide (c ≠ ':') := by
    induction l with
    | nil => simp
    | cons c l ih =>
      by_cases hc : c = ':'
      · simp [hc]
      · simp only [List.cons_append, List.takeWhile_cons, ne_eq, hc, not_false_eq_true, decide_true,
          if_true]
        exact congrArg _ ih
  have hlist : (name ++ ":" ++ suffix).toList = name.toList ++ ':' :: suffix.toList := by
    simp [String.toList_append]
  rw [baseOf, hlist, hcut, baseOf]

end Kyzo

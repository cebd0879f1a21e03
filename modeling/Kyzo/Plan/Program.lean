import Kyzo.Exec.Aggr
import Kyzo.Store.SkipWalk
import Std.Data.TreeMap.Lemmas

/-!
# Programs of the plan tier

`exec/plan/program.rs` with the names and expressions of `kyzo_model::program`: normal-form rules,
the program they make up, and its strata.  Source spans are left out: the identity of a name is the
name alone.
-/

namespace Kyzo

/-! ## Names -/

structure Symbol where
  name : String
  deriving DecidableEq, Repr

namespace Symbol

instance : Ord Symbol := ⟨compareOn Symbol.name⟩

instance : Std.TransOrd Symbol := inferInstanceAs (Std.TransCmp (compareOn Symbol.name))

instance : Std.LawfulEqOrd Symbol where
  compare_self := Std.ReflCmp.compare_self
  eq_of_compare {a b} h := by
    have hname : compare a.name b.name = .eq := h
    rcases a with ⟨name⟩
    obtain rfl : name = b.name := Std.LawfulEqOrd.eq_of_compare hname
    rfl

def progEntry : Symbol := ⟨"?"⟩

end Symbol

inductive SymbolKind where
  | entry
  | ignored
  | generatedIgnored
  | generated
  | user
  deriving DecidableEq, Repr

def Symbol.kind (s : Symbol) : SymbolKind :=
  if s.name = "?" then .entry
  else if s.name = "_" then .ignored
  else if s.name.startsWith "~" then .generatedIgnored
  else if s.name.startsWith "*" then .generated
  else .user

/-! ## Expressions -/

inductive BindingPos where
  | unresolved
  | resolved (idx : ℕ)

structure OpDecl where
  name : String
  minArity : ℕ
  vararg : Bool
  deterministic : Bool

inductive LazyOp where
  | and
  | or
  | coalesce

inductive Expr where
  | binding (var : Symbol) (tuplePos : BindingPos)
  | const (val : DataValue)
  | apply (op : OpDecl) (args : List Expr)
  | unboundApply (op : String) (args : List Expr)
  | cond (clauses : List (Expr × Expr))
  | lazy (op : LazyOp) (args : List Expr)

structure Unification where
  binding : Symbol
  expr : Expr
  oneManyUnif : Bool

/-! ## Rules in normal form -/

inductive DeltaAxis where
  | valid
  | sys

inductive ValidityClause where
  | at (asOf : AsOf)
  | spans (sys : Int64) (var : Symbol)
  | delta (axis : DeltaAxis) (fr upto : Int64) (var : Symbol)

def ValidityClause.extraVar : ValidityClause → Option Symbol
  | .at _ => none
  | .spans _ var => some var
  | .delta _ _ _ var => some var

structure NormalFormRuleApplyAtom where
  name : Symbol
  args : List Symbol

structure NormalFormRelationApplyAtom where
  name : Symbol
  args : List Symbol
  validity : Option ValidityClause

/-- `SearchAtom`, without the parameters of its engine. -/
structure SearchAtom where
  query : Expr
  ownBindings : List Symbol
  filter : Option Expr

inductive NormalFormAtom where
  | rule (r : NormalFormRuleApplyAtom)
  | relation (r : NormalFormRelationApplyAtom)
  | negatedRule (r : NormalFormRuleApplyAtom)
  | negatedRelation (r : NormalFormRelationApplyAtom)
  | predicate (p : Expr)
  | unification (u : Unification)
  | search (s : SearchAtom)

structure NormalFormInlineRule where
  head : List Symbol
  aggr : List HeadAggrSlot
  body : List NormalFormAtom

inductive FixedRuleArg where
  | inMem (name : Symbol) (bindings : List Symbol)
  | stored (name : Symbol) (bindings : List Symbol) (asOf : Option AsOf)
  | namedStored (name : Symbol) (bindings : List (Symbol × Symbol)) (asOf : Option AsOf)

/-- `FixedRuleApply`, without the options that only its implementation reads. -/
structure FixedRuleApply where
  fixedHandle : Symbol
  ruleArgs : List FixedRuleArg
  head : List Symbol
  arity : ℕ

inductive NormalFormRulesOrFixed where
  | rules (rules : List NormalFormInlineRule)
  | fixed (fixed : FixedRuleApply)

/-- `NormalFormProgram`.  An entry named `?` has been taken out of the rules. -/
structure NormalFormProgram where
  entryName : Symbol
  entry : NormalFormRulesOrFixed
  rules : Std.TreeMap Symbol NormalFormRulesOrFixed
  disableMagicRewrite : Bool
  isEntry : entryName = .progEntry
  notMem : entryName ∉ rules

def NormalFormProgram.iterAll (p : NormalFormProgram) : List (Symbol × NormalFormRulesOrFixed) :=
  p.rules.toList ++ [(p.entryName, p.entry)]

/-! ## Strata -/

abbrev NormalFormStratum := Std.TreeMap Symbol NormalFormRulesOrFixed

def NormalFormStratum.holdsEntry (s : NormalFormStratum) : Bool :=
  s.keys.any fun k => k.kind = .entry

/-- What the tier constructors refuse with. -/
inductive TierError where
  | noEntry
  /-- `TierInvariantError` -/
  | entryNotInFinalStratum

/-- `StratifiedNormalFormProgram`: strata in execution order, the entry in the final one. -/
structure StratifiedNormalFormProgram where
  strata : List NormalFormStratum
  disableMagicRewrite : Bool
  entryLast : ∃ last, strata.getLast? = some last ∧ NormalFormStratum.holdsEntry last = true

def StratifiedNormalFormProgram.fromReverseExecutionOrder (reversedStrata : List NormalFormStratum)
    (disableMagicRewrite : Bool) : Except TierError StratifiedNormalFormProgram :=
  match h : reversedStrata.reverse.getLast? with
  | none => .error .noEntry
  | some last =>
    if hlast : NormalFormStratum.holdsEntry last = true then
      .ok ⟨reversedStrata.reverse, disableMagicRewrite, last, h, hlast⟩
    else if reversedStrata.reverse.any NormalFormStratum.holdsEntry then
      .error .entryNotInFinalStratum
    else .error .noEntry

/-! ## Magic names and store lifetimes -/

inductive AdornmentMark where
  | bound
  | free
  deriving DecidableEq, Repr, Ord

inductive MagicSymbol where
  | muggle (inner : Symbol)
  | magic (inner : Symbol) (adornment : List AdornmentMark)
  | input (inner : Symbol) (adornment : List AdornmentMark)
  | sup (inner : Symbol) (adornment : List AdornmentMark) (ruleIdx supIdx : UInt16)
  deriving DecidableEq, Repr, Ord

/-- `StoreLifetimes`: for each store the last stratum that reads it. -/
abbrev StoreLifetimes := Std.TreeMap MagicSymbol ℕ

def StoreLifetimes.noteUse (l : StoreLifetimes) (store : MagicSymbol) (lastUse : ℕ) :
    StoreLifetimes :=
  l.alter store fun old => some (max (old.getD lastUse) lastUse)

end Kyzo

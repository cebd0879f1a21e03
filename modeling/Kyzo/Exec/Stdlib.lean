import Kyzo.Plan.Program
import Kyzo.Value.NumberOrder

/-!
# Operators the planner knows by name

The operators of `exec/stdlib` that the plan tier writes into expressions or reads back from them:
equality, membership in a list, the four comparisons and the prefix test.  Equality of expressions
is numeric on numbers, where the identity of values is not.  All other operators are one parameter.
-/

namespace Kyzo

namespace OpDecl

/-- `OP_EQ`. -/
def eq : OpDecl := ⟨"OP_EQ", 2, false, true⟩

/-- `OP_GT`. -/
def gt : OpDecl := ⟨"OP_GT", 2, false, true⟩

/-- `OP_LE`. -/
def le : OpDecl := ⟨"OP_LE", 2, false, true⟩

end OpDecl

/-- What an operator refuses with. -/
inductive OpError where
  /-- A number of arguments the operator does not take. -/
  | arity (op : String) (given : ℕ)
  /-- `StdlibRefuse::CrossTypeCompare` -/
  | crossTypeCompare (left right : DataValue)
  /-- "right hand side of 'is_in' must be a list" -/
  | notAList
  /-- "'starts_with' requires strings or bytes" -/
  | notStringsOrBytes
  /-- What another operator reports. -/
  | raised (text : String)

/-- The operators outside the named ones. -/
abbrev Library := OpDecl → List DataValue → Except OpError DataValue

variable (a b : DataValue)

/-- How values compare in expressions: numbers by value, all else in the order of storage. -/
def exprCmp : Ordering :=
  match a.val, b.val with
  | .num m, .num n => (NumericOrd.of m).cmp (.of n)
  | _, _ => compare a b

def opEq : Bool :=
  match a.val, b.val with
  | .num m, .num n => (NumericOrd.of m).cmp (.of n) == .eq
  | _, _ => a == b

/-- The kinds of values that compare with their own kind. -/
def comparableTags : List Tag := [.null, .bool, .num, .str, .bytes, .regex, .list, .set]

def ensureSameValueType : Except OpError Unit :=
  if a.val.tag = b.val.tag ∧ a.val.tag ∈ comparableTags then .ok ()
  else .error (.crossTypeCompare a b)

/-- The shape of the four comparisons. -/
def compareBy (pick : Ordering → Bool) (a b : DataValue) : Except OpError DataValue := do
  ensureSameValueType a b
  return .bool (pick (exprCmp a b))

def opGe : DataValue → DataValue → Except OpError DataValue := compareBy (· != .lt)

def opGt : DataValue → DataValue → Except OpError DataValue := compareBy (· == .gt)

def opLe : DataValue → DataValue → Except OpError DataValue := compareBy (· != .gt)

def opLt : DataValue → DataValue → Except OpError DataValue := compareBy (· == .lt)

def opIsIn : Except OpError DataValue :=
  match b.getSlice with
  | some items => .ok (.bool (items.contains a))
  | none => .error .notAList

def opStartsWith : Except OpError DataValue :=
  match a.val, b.val with
  | .str l, .str r => .ok (.bool (r.toList.isPrefixOf l.toList))
  | .bytes l, .bytes r => .ok (.bool (r.isPrefixOf l))
  | _, _ => .error .notStringsOrBytes

/-- An operator of two arguments. -/
def binary (name : String) (f : DataValue → DataValue → Except OpError DataValue) :
    List DataValue → Except OpError DataValue
  | [a, b] => f a b
  | args => .error (.arity name args.length)

/-- `BoundOp::apply`, behind the lookup of the operator by its name. -/
def Library.apply (lib : Library) (op : OpDecl) (args : List DataValue) :
    Except OpError DataValue :=
  if op.name = "OP_EQ" then binary op.name (fun a b => .ok (.bool (opEq a b))) args
  else if op.name = "OP_IS_IN" then binary op.name opIsIn args
  else if op.name = "OP_GE" then binary op.name opGe args
  else if op.name = "OP_GT" then binary op.name opGt args
  else if op.name = "OP_LE" then binary op.name opLe args
  else if op.name = "OP_LT" then binary op.name opLt args
  else if op.name = "OP_STARTS_WITH" then binary op.name opStartsWith args
  else lib op args

namespace DataValue

lemma compare_num (m n : Num) : compare (num m) (num n) = m.cmp n := by
  rfl

lemma compare_str (s t : String) : compare (str s) (str t) = compare (asBytes s) (asBytes t) := by
  rfl

end DataValue

end Kyzo

import Kyzo.Plan.Program

/-!
# Variables of expressions

`kyzo_model::program::expr`, as far as the plan tier asks which variables an expression reads.
-/

namespace Kyzo

/-- Refusals of the expression tier. -/
inductive ExprError where
  /-- `NoImplementationError`: an operator that was never resolved. -/
  | noImplementation (op : String)

namespace Expr

mutual

def collectBindings : Expr → List Symbol → Except ExprError (List Symbol)
  | .binding var _, coll => .ok (coll.insert var)
  | .const _, coll => .ok coll
  | .apply _ args, coll => collectBindingsArgs args coll
  | .lazy _ args, coll => collectBindingsArgs args coll
  | .cond clauses, coll => collectBindingsClauses clauses coll
  | .unboundApply op _, _ => .error (.noImplementation op)

/-- The loop over arguments. -/
def collectBindingsArgs : List Expr → List Symbol → Except ExprError (List Symbol)
  | [], coll => .ok coll
  | arg :: args, coll => do
    let coll ← collectBindings arg coll
    collectBindingsArgs args coll

/-- The loop over the clauses of a conditional. -/
def collectBindingsClauses : List (Expr × Expr) → List Symbol → Except ExprError (List Symbol)
  | [], coll => .ok coll
  | (test, val) :: clauses, coll => do
    let coll ← collectBindings test coll
    let coll ← collectBindings val coll
    collectBindingsClauses clauses coll

end

def bindings (e : Expr) : Except ExprError (List Symbol) := e.collectBindings []

end Expr

namespace Unification

def isConst (u : Unification) : Bool :=
  match u.expr with
  | .const _ => true
  | _ => false

end Unification

end Kyzo

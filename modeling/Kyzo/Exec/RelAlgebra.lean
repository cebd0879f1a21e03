import Kyzo.Plan.ScanRange

/-!
# The operator tree of a rule body

`exec/op`: the tree a rule body is compiled to, the columns of its operators, the filters put into
it and the resolution of its variables.  The three scans that carry filters are one constructor over
what they scan, and so are the two scans of derived history.  Premises of derivations, source spans
and the posting index that only accelerates a scan are left out.
-/

namespace Kyzo

/-- What building, resolving or running a tree refuses with. -/
inductive PlanError where
  /-- `PlanInvariantError` -/
  | invariant (message : String)
  /-- What an expression refuses when asked for its variables. -/
  | expr (e : ExprError)
  /-- What the resolution of an expression refuses with. -/
  | fill (e : Expr.FillError)
  /-- What the evaluation of an expression refuses with. -/
  | eval (e : ExprFault)
  | badSpreadUnification
  /-- `StoredRowTooShortError`, and a column past the end of a row elsewhere -/
  | rowTooShort (idx len : ℕ)
  /-- What an index search refuses with. -/
  | search (text : String)

/-- `RelationHandle`, as far as the operators read it. -/
structure ScanHandle where
  name : String
  /-- `metadata.keys.len()` -/
  keyLen : ℕ

def Expr.toConjunction : Expr → List Expr
  | .lazy .and args => args
  | e => [e]

/-- What a scan with filters reads: `TempStoreRA`, `StoredRA`, `StoredWithValidityRA`. -/
inductive ScanSource where
  | tempStore (storageKey : MagicSymbol) (occurrence : ℕ)
  | stored (storage : ScanHandle)
  | storedWithValidity (storage : ScanHandle) (asOf : AsOf)

/-- What a scan of derived history reads: `SpansRA`, `DeltaRA`. -/
inductive DerivedSource where
  | spans (storage : ScanHandle) (sys : Int64)
  | delta (storage : ScanHandle) (fr upto : AsOf)

structure Joiner where
  leftKeys : List Symbol
  rightKeys : List Symbol

inductive NegRight where
  | scan (source : ScanSource) (bindings : List Symbol) (filters : List Expr)
  | derived (source : DerivedSource) (bindings : List Symbol)

def NegRight.bindings : NegRight → List Symbol
  | .scan _ bindings _ => bindings
  | .derived _ bindings => bindings

inductive UnificationKind where
  | single
  | spread

inductive RelAlgebra where
  | fixed (bindings : List Symbol) (data : List Tuple) (toEliminate : List Symbol)
  | scan (source : ScanSource) (bindings : List Symbol) (filters : List Expr)
  | derived (source : DerivedSource) (bindings : List Symbol)
  | join (left right : RelAlgebra) (joiner : Joiner) (toEliminate : List Symbol)
  | negJoin (left : RelAlgebra) (right : NegRight) (joiner : Joiner) (toEliminate : List Symbol)
  | reorder (relation : RelAlgebra) (newOrder : List Symbol)
  | filter (parent : RelAlgebra) (filters : List Expr) (toEliminate : List Symbol)
  | unification (parent : RelAlgebra) (binding : Symbol) (expr : Expr) (kind : UnificationKind)
      (toEliminate : List Symbol)
  | search (parent : RelAlgebra) (atom : SearchAtom)

/-- The names that elimination leaves. -/
def shed (toEliminate names : List Symbol) : List Symbol := names.filter (· ∉ toEliminate)

namespace RelAlgebra

/-! ## Columns -/

def isUnit : RelAlgebra → Bool
  | .fixed bindings data _ => bindings.isEmpty && data.length == 1
  | _ => false

def eliminateSet : RelAlgebra → List Symbol
  | .fixed _ _ toEliminate => toEliminate
  | .join _ _ _ toEliminate => toEliminate
  | .negJoin _ _ _ toEliminate => toEliminate
  | .filter _ _ toEliminate => toEliminate
  | .unification _ _ _ _ toEliminate => toEliminate
  | .scan .. | .derived .. | .reorder .. | .search .. => []

def bindingsBeforeEliminate : RelAlgebra → List Symbol
  | .fixed bindings _ _ => bindings
  | .scan _ bindings _ => bindings
  | .derived _ bindings => bindings
  | .join left right _ _ =>
    shed left.eliminateSet left.bindingsBeforeEliminate ++
      shed right.eliminateSet right.bindingsBeforeEliminate
  | .negJoin left _ _ _ => shed left.eliminateSet left.bindingsBeforeEliminate
  | .reorder _ newOrder => newOrder
  | .filter parent _ _ => shed parent.eliminateSet parent.bindingsBeforeEliminate
  | .unification parent binding _ _ _ =>
    shed parent.eliminateSet parent.bindingsBeforeEliminate ++ [binding]
  | .search parent atom =>
    shed parent.eliminateSet parent.bindingsBeforeEliminate ++ atom.ownBindings

def bindingsAfterEliminate (t : RelAlgebra) : List Symbol :=
  shed t.eliminateSet t.bindingsBeforeEliminate

/-! ## Filters -/

/-- How many joins lie below each other on the way a filter can be pushed. -/
def spine : RelAlgebra → ℕ
  | .join left right _ _ => max left.spine right.spine + 1
  | _ => 0

/-- A join while the conjuncts of a filter are handed out. -/
structure Pushed where
  left : RelAlgebra
  right : RelAlgebra
  remaining : List Expr

/-- One conjunct of a filter over a join: to the left side, to the right side, or above the join.
`leftBindings` and `rightBindings` are those of the sides before the first conjunct. -/
def Pushed.conjunct (push : RelAlgebra → Expr → Except PlanError RelAlgebra)
    (leftBindings rightBindings : List Symbol) (p : Pushed) (f : Expr) :
    Except PlanError Pushed := do
  let vars ← f.bindings.mapError .expr
  if vars ⊆ leftBindings then
    let left ← push p.left f
    return { p with left }
  else if vars ⊆ rightBindings then
    let right ← push p.right f
    return { p with right }
  else
    return { p with remaining := p.remaining ++ [f] }

/-- The join a filter leaves, under the conjuncts that read both sides. -/
def Pushed.joined (p : Pushed) (joiner : Joiner) (toEliminate : List Symbol) : RelAlgebra :=
  let joined := .join p.left p.right joiner toEliminate
  if p.remaining = [] then joined else .filter joined p.remaining []

/-- `RelAlgebra::filter`, with a bound on the joins it goes through. -/
def filterWithin : ℕ → RelAlgebra → Expr → Except PlanError RelAlgebra
  | _, .filter parent filters toEliminate, f => .ok (.filter parent (filters ++ [f]) toEliminate)
  | _, .scan source bindings filters, f => .ok (.scan source bindings (filters ++ [f]))
  | fuel + 1, .join left right joiner toEliminate, f => do
    let p ← f.toConjunction.foldlM
      (Pushed.conjunct (filterWithin fuel) left.bindingsBeforeEliminate
        right.bindingsBeforeEliminate) ⟨left, right, []⟩
    return p.joined joiner toEliminate
  | _, t, f => .ok (.filter t [f] [])

/-- `RelAlgebra::filter`. -/
def addFilter (t : RelAlgebra) (f : Expr) : Except PlanError RelAlgebra := filterWithin t.spine t f

/-! ## Resolution -/

/-- The resolution of expressions in one frame. -/
def fillExprs (frame : List Symbol) (exprs : List Expr) : Except PlanError (List Expr) :=
  (exprs.mapM (Expr.fillBindingIndices frame)).mapError .fill

/-- `RelAlgebra::fill_binding_indices_and_compile`. -/
def fillBindingIndices : RelAlgebra → Except PlanError RelAlgebra
  | .fixed bindings data toEliminate => .ok (.fixed bindings data toEliminate)
  | .scan source bindings filters => do
    let filters ← fillExprs bindings filters
    return .scan source bindings filters
  | .derived source bindings => .ok (.derived source bindings)
  | .join left right joiner toEliminate => do
    let left ← left.fillBindingIndices
    let right ← right.fillBindingIndices
    return .join left right joiner toEliminate
  | .negJoin left right joiner toEliminate => do
    let left ← left.fillBindingIndices
    return .negJoin left right joiner toEliminate
  | .reorder relation newOrder => do
    let relation ← relation.fillBindingIndices
    return .reorder relation newOrder
  | .filter parent filters toEliminate => do
    let frame := parent.bindingsAfterEliminate
    let parent ← parent.fillBindingIndices
    let filters ← fillExprs frame filters
    return .filter parent filters toEliminate
  | .unification parent binding expr kind toEliminate => do
    let frame := parent.bindingsAfterEliminate
    let parent ← parent.fillBindingIndices
    let expr ← (expr.fillBindingIndices frame).mapError .fill
    return .unification parent binding expr kind toEliminate
  | .search parent atom => do
    let frame := parent.bindingsAfterEliminate
    let parent ← parent.fillBindingIndices
    let query ← (atom.query.fillBindingIndices frame).mapError .fill
    let filter ← atom.filter.mapM fun f =>
      (f.fillBindingIndices (frame ++ atom.ownBindings)).mapError .fill
    return .search parent { atom with query, filter }

end RelAlgebra

end Kyzo

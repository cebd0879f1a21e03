import Kyzo.Exec.RelAlgebra
import Kyzo.Exec.NormalScan
import Kyzo.Lib.SortedRun
import Kyzo.Lib.Enumerates

/-!
# Running an operator tree

`iter_batched` of the operators in `exec/op`: a resolved tree turned into rows.  Batches are left
out, a run is the list of its rows, and a run that meets an error on the way is that error.  The
segment cache, which answers what the scan it stands for answers, is left out as well.
-/

namespace Kyzo

open Prod

/-! ## What a plan reads -/

/-- The rows of a rule's store: all of them, and those of the last epoch. -/
structure EpochRows where
  total : List Tuple
  delta : List Tuple

/-- What a plan reads while it runs: the stores of the rules with the occurrence that reads its
delta, the stored relations, now and at other times, and the index searches, which are told apart by
the columns they bind.  A stored relation has one current row for a key. -/
structure PlanReads where
  stores : MagicSymbol → Option EpochRows
  deltaRule : Option ℕ
  current : ScanHandle → List Tuple
  asOf : ScanHandle → AsOf → List Tuple
  spans : ScanHandle → Int64 → List Tuple
  delta : ScanHandle → AsOf → AsOf → List Tuple
  search : List Symbol → DataValue → Except PlanError (List Tuple)
  current_unique : ∀ h, ∀ r ∈ current h, ∀ s ∈ current h, r.take h.keyLen = s.take h.keyLen → r = s

namespace PlanReads

variable (rd : PlanReads)

def epochStoreOf (key : MagicSymbol) : Except PlanError EpochRows :=
  match rd.stores key with
  | some rows => .ok rows
  | none => .error (.invariant "a compiled scan references a rule with no store")

/-- The rows of a scan in a join or on its own: of a store, the delta for the named occurrence. -/
def scanRows : ScanSource → Except PlanError (List Tuple)
  | .tempStore key occurrence => do
    let rows ← rd.epochStoreOf key
    return if rd.deltaRule = some occurrence then rows.delta else rows.total
  | .stored h => .ok (rd.current h)
  | .storedWithValidity h asOf => .ok (rd.asOf h asOf)

/-- The rows of a scan under negation: of a store, always the total. -/
def totalRows : ScanSource → Except PlanError (List Tuple)
  | .tempStore key _ => do
    let rows ← rd.epochStoreOf key
    return rows.total
  | .stored h => .ok (rd.current h)
  | .storedWithValidity h asOf => .ok (rd.asOf h asOf)

/-- The rows of a scan of derived history. -/
def derivedRows : DerivedSource → List Tuple
  | .spans h sys => rd.spans h sys
  | .delta h fr upto => rd.delta h fr upto

end PlanReads

/-! ## Rows and columns -/

/-- One column of a row. -/
def column (row : Tuple) (c : ℕ) : Except PlanError DataValue :=
  match row[c]? with
  | some v => .ok v
  | none => .error (.rowTooShort c row.length)

/-- The columns of a row at positions. -/
def project (row : Tuple) (cols : List ℕ) : Except PlanError Tuple := cols.mapM (column row)

/-- `eliminate_from_tuple` with the indices of `get_eliminate_indices`. -/
def eliminateFromTuple (toEliminate : List Symbol) : List Symbol → Tuple → Tuple
  | b :: bs, v :: row =>
    if b ∈ toEliminate then eliminateFromTuple toEliminate bs row
    else v :: eliminateFromTuple toEliminate bs row
  | [], row => row
  | _, [] => []

/-- The position of a join key in its frame. -/
def frameIndex (frame : List Symbol) (key : Symbol) (message : String) : Except PlanError ℕ :=
  match Expr.position key frame with
  | some i => .ok i
  | none => .error (.invariant message)

/-- `Joiner::join_indices`, pair by pair. -/
def Joiner.joinIndices (j : Joiner) (left right : List Symbol) : Except PlanError (List (ℕ × ℕ)) :=
  (j.leftKeys.zip j.rightKeys).mapM fun (l, r) => do
    let lPos ← frameIndex left l "a left join key is not in the left frame"
    let rPos ← frameIndex right r "a right join key is not in the right frame"
    return (lPos, rPos)

variable (indices : List (ℕ × ℕ))

def joinIsPrefix : Bool :=
  (indices.map snd).insertionSort (· ≤ ·) == List.range indices.length

/-- `left_to_prefix_indices`: the left columns in the order of the right ones. -/
def prefixColumns : List ℕ :=
  (indices.insertionSort fun a b => a.2 ≤ b.2).map fst

/-- The check of every join column of a row that was found. -/
def agrees (left found : Tuple) : List (ℕ × ℕ) → Except PlanError Bool
  | [] => .ok true
  | (l, r) :: rest => do
    let leftVal ← column left l
    let foundVal ← column found r
    if leftVal = foundVal then agrees left found rest else return false

/-! ## Scans -/

section

variable (lib : Library)

/-- The rows that filters let pass, one filter after the other. -/
def passing (filters : List Expr) (rows : List Tuple) : Except PlanError (List Tuple) :=
  collectM (fun row => do
    if ← (Expr.filtersWith lib (Expr.readAt row) filters).mapError .eval then return [row]
    else return []) rows

def conjunctionPred : List Expr → Option Expr
  | [] => none
  | [one] => some one
  | many => some (.lazy .and many)

/-- `refine_batch` over the rows of a scan. -/
def refine (filters : List Expr) (rows : List Tuple) : Except PlanError (List Tuple) :=
  match conjunctionPred filters with
  | none => .ok rows
  | some pred => passing lib [pred] rows

end

/-- The bounds of a probe: those of the filters, when there is one among them that bounds. -/
def scanBounds (filters : List Expr) (symbols : List Symbol) :
    Option (List ScanBound × List ScanBound) :=
  if filters.isEmpty then none
  else
    match Expr.computeBounds filters symbols with
    | .ok (lower, upper) =>
      if lower.any (! ·.isLeast) || upper.any (! ·.isGreatest) then some (lower, upper) else none
    | .error _ => none

/-- The key columns after the first `n`, where the scan binds them all. -/
def ScanHandle.keysFrom (h : ScanHandle) (bindings : List Symbol) (n : ℕ) : List Symbol :=
  if n ≤ h.keyLen ∧ h.keyLen ≤ bindings.length then (bindings.take h.keyLen).drop n else []

/-- The rows whose key starts with the projected columns and lies in the bounds. -/
def probeKeys (h : ScanHandle) (bindings : List Symbol) (filters : List Expr)
    (indices : List (ℕ × ℕ)) (rows : List Tuple) (left : Tuple) : Except PlanError (List Tuple) :=
  match scanBounds filters (h.keysFrom bindings indices.length) with
  | some (lower, upper) => do
    let p ← project left (prefixColumns indices)
    return rows.filter fun row => inBounds (p.map .value ++ lower)
      (p.map .value ++ upper ++ [.greatest]) true (row.take h.keyLen)
  | none => do
    let p ← project left ((prefixColumns indices).take h.keyLen)
    return rows.filter (p <+: ·)

/-- The probe of a prefix join: the rows of a scan that go with one left row, before the filters. -/
def probe (source : ScanSource) (bindings : List Symbol) (filters : List Expr)
    (indices : List (ℕ × ℕ)) (rows : List Tuple) (left : Tuple) : Except PlanError (List Tuple) :=
  match source with
  | .tempStore _ _ => do
    let p ← project left (prefixColumns indices)
    match scanBounds filters (bindings.drop indices.length) with
    | some (lower, upper) =>
      return rows.filter (inBounds (p.map .value ++ lower) (p.map .value ++ upper) true)
    | none => return rows.filter (p <+: ·)
  | .stored h =>
    -- A point lookup when the join columns cover the key.
    if h.keyLen ≤ indices.length then do
      let key ← project left ((prefixColumns indices).take h.keyLen)
      match rows.find? (key <+: ·) with
      | none => return []
      | some found => if ← agrees left found indices then return [found] else return []
    else probeKeys h bindings filters indices rows left
  | .storedWithValidity h _ => probeKeys h bindings filters indices rows left

/-! ## Joins -/

/-- The right side of a join that a prefix join probes. -/
def RelAlgebra.probed (right : RelAlgebra) (indices : List (ℕ × ℕ)) :
    Option (ScanSource × List Symbol × List Expr) :=
  match right with
  | .scan source bindings filters =>
    if joinIsPrefix indices then some (source, bindings, filters) else none
  | _ => none

/-- `materialized_join_batched`: the right rows in a sorted run, join columns first, and the rows of
the run that go with each left row. -/
def materializedJoin (width : ℕ) (rights lefts : List Tuple) : Except PlanError (List Tuple) := do
  let order := storeOrder (indices.map snd) width
  let stored ← rights.mapM (project · order)
  let run := sortAll stored.dedup
  collectM (fun left => do
    let key ← project left (indices.map fst)
    let found ← (equalRun (fun s : Tuple => s.take indices.length) key run).mapM
      (project · (invertOrder order))
    return found.map (left ++ ·)) lefts

/-- The probe of an anti-join: does any right row match? -/
def NegRight.hasMatch (rd : PlanReads) (indices : List (ℕ × ℕ)) (right : NegRight) :
    Except PlanError (Tuple → Except PlanError Bool) := do
  -- The set of the join columns of all right rows.
  let among (rows : List Tuple) : Except PlanError (Tuple → Except PlanError Bool) := do
    let vals ← rows.mapM (project · (indices.map snd))
    return fun left => do
      let key ← project left (indices.map fst)
      return key ∈ vals
  -- The rows under the projected columns, each checked in full.
  let under (cols : List ℕ) (rows : List Tuple) (left : Tuple) : Except PlanError Bool := do
    let p ← project left cols
    (rows.filter (p <+: ·)).anyM (agrees left · indices)
  match right with
  | .scan source _ _ =>
    let rows ← rd.totalRows source
    if joinIsPrefix indices then
      match source with
      | .tempStore _ _ => return under (prefixColumns indices) rows
      | .stored h | .storedWithValidity h _ =>
        return under ((prefixColumns indices).take h.keyLen) rows
    else among rows
  | .derived source _ => among (rd.derivedRows source)

/-! ## The tree -/

namespace RelAlgebra

variable (lib : Library) (rd : PlanReads)

/-- `RelAlgebra::iter_batched`, to the end. -/
def iter : RelAlgebra → Except PlanError (List Tuple)
  | .fixed _ data _ => .ok data
  | .scan source _ filters => do
    let rows ← rd.scanRows source
    refine lib filters rows
  | .derived source _ => .ok (rd.derivedRows source)
  | .join left right joiner toEliminate => do
    let names := left.bindingsAfterEliminate ++ right.bindingsAfterEliminate
    if left.isUnit then
      return (← right.iter).map (eliminateFromTuple toEliminate names)
    else
      let indices ← joiner.joinIndices left.bindingsAfterEliminate right.bindingsAfterEliminate
      match right.probed indices with
      | some (source, bindings, filters) =>
        let rows ← rd.scanRows source
        let joined ← collectM (fun l => do
          let found ← probe source bindings filters indices rows l
          return (← passing lib filters found).map (l ++ ·)) (← left.iter)
        return joined.map (eliminateFromTuple toEliminate names)
      | none =>
        let rights ← right.iter
        let joined ← materializedJoin indices right.bindingsAfterEliminate.length rights
          (← left.iter)
        return joined.map (eliminateFromTuple toEliminate names)
  | .negJoin left right joiner toEliminate => do
    let names := left.bindingsAfterEliminate
    let indices ← joiner.joinIndices names right.bindings
    let hasMatch ← right.hasMatch rd indices
    collectM (fun l => do
      if ← hasMatch l then return [] else return [eliminateFromTuple toEliminate names l])
      (← left.iter)
  | .reorder relation newOrder => do
    let indices ← newOrder.mapM fun name => frameIndex relation.bindingsAfterEliminate name
      "reorder columns are not a permutation of the parent's"
    let rows ← relation.iter
    rows.mapM (project · indices)
  | .filter parent filters toEliminate => do
    let names := parent.bindingsAfterEliminate
    return (← passing lib filters (← parent.iter)).map (eliminateFromTuple toEliminate names)
  | .unification parent binding expr kind toEliminate => do
    let names := parent.bindingsAfterEliminate ++ [binding]
    collectM (fun row => do
      let val ← (expr.evalExpr lib row).mapError .eval
      let vals ← match kind with
        | .single => pure [val]
        | .spread =>
          match val.getSlice with
          | some items => pure items
          | none => throw .badSpreadUnification
      return vals.map fun v => eliminateFromTuple toEliminate names (row ++ [v])) (← parent.iter)
  | .search parent atom => do
    collectM (fun row => do
      let query ← (atom.query.evalExpr lib row).mapError .eval
      return (← rd.search atom.ownBindings query).map (row ++ ·)) (← parent.iter)

/-- A built tree resolved and run. -/
def run (t : RelAlgebra) : Except PlanError (List Tuple) := do
  let t ← t.fillBindingIndices
  t.iter lib rd

end RelAlgebra

end Kyzo

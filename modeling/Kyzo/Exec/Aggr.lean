import Kyzo.Value.Access

/-!
# Meet aggregations

A meet aggregation folds the values of a group through a semilattice operation and reports, at each
update, whether the running value moved.  The report is what the delta discipline of a recursive
rule rests on, so the operations are kept as the engine computes them: each update returns its flag
together with the accumulator it leaves behind, or refuses.
-/

namespace Kyzo

/-- The running state of a meet fold (`MeetAccum`): the identity without a value of its own, or a
value. -/
inductive MeetAccum where
  | empty
  | value (v : DataValue)

namespace MeetAccum

def fromDerived (v : DataValue) : MeetAccum := .value v

def toValue : MeetAccum → DataValue
  | .empty => .null
  | .value v => v

end MeetAccum

/-- The refusals of the meet operations, with the operands their messages print. -/
inductive AggrError where
  /-- "cannot compute '..' for .. and ..". -/
  | cannotCompute (name : String) (left right : DataValue)
  /-- "cannot compute '..' for value ..". -/
  | cannotComputeFor (name : String) (right : DataValue)
  /-- "'..' applied to non-numerical values". -/
  | nonNumerical (name : String)
  /-- "'min_cost' requires a list of length 2 as argument, got .., ..". -/
  | pairRequired (prev cur : List DataValue)
  /-- "'min_cost' must have numerical costs". -/
  | numericalCosts
  /-- "operands of '..' must have the same lengths, got .. and ..". -/
  | sameLengths (name : String) (left right : Bytes)
  /-- "cannot apply '..' to ..". -/
  | cannotApply (name : String) (left right : DataValue)
  /-- "hll_union expects sketch bytes, got ..". -/
  | sketchBytes (v : DataValue)
  /-- "HyperLogLog bytes too short: .. bytes". -/
  | sketchTooShort (len : ℕ)
  /-- "unknown HyperLogLog format tag ..". -/
  | sketchTag (tag : UInt8)
  /-- "HyperLogLog precision .. does not match type precision ..". -/
  | sketchPrecision (precision : UInt8)
  /-- "HyperLogLog register length .. does not match const M=..". -/
  | sketchRegisters (len : ℕ)

/-! ## HyperLogLog sketches -/

/-- A register bank of length `m` (`HyperLogLog`). -/
abbrev HyperLogLog (m : ℕ) := {registers : Bytes // registers.length = m}

namespace HyperLogLog

def defaultPrecision : UInt8 := 14

def defaultM : ℕ := 2 ^ 14

def formatTag : UInt8 := 0x01

def new (m : ℕ) : HyperLogLog m := ⟨List.replicate m 0, List.length_replicate ..⟩

end HyperLogLog

/-- The loop of a byte-wise fold: the folded bytes, and whether any of them moved. -/
def foldBytes (f : UInt8 → UInt8 → UInt8) : Bytes → Bytes → Bool × Bytes
  | l :: left, r :: right =>
    let (changed, out) := foldBytes f left right
    (changed || f l r != l, f l r :: out)
  | left, _ => (false, left)

lemma length_foldBytes (f : UInt8 → UInt8 → UInt8) (left right : Bytes) :
    (foldBytes f left right).2.length = left.length := by
  induction left generalizing right with
  | nil => cases right <;> rfl
  | cons l left ih =>
    rcases right with _ | ⟨r, right⟩
    · rfl
    · simp [foldBytes, ih]

namespace HyperLogLog

/-- `HyperLogLog::merge`: the register-wise maximum. -/
def merge {m : ℕ} (self other : HyperLogLog m) : Bool × HyperLogLog m :=
  let merged := foldBytes (fun l r => if r > l then r else l) self.val other.val
  (merged.1, ⟨merged.2, (length_foldBytes ..).trans self.property⟩)

/-- `HyperLogLog::to_bytes`, at the default precision. -/
def toBytes (h : HyperLogLog defaultM) : Bytes := formatTag :: defaultPrecision :: h.val

/-- `HyperLogLog::from_bytes`, at the default precision. -/
def fromBytes : Bytes → Except AggrError (HyperLogLog defaultM)
  | tag :: precision :: rest =>
    if tag ≠ formatTag then .error (.sketchTag tag)
    else if precision ≠ defaultPrecision then .error (.sketchPrecision precision)
    else if h : rest.length = defaultM then .ok ⟨rest, h⟩
    else .error (.sketchRegisters rest.length)
  | bytes => .error (.sketchTooShort bytes.length)

def toValue (h : HyperLogLog defaultM) : DataValue := .bytes h.toBytes

end HyperLogLog

def asHll : DataValue → Except AggrError (HyperLogLog HyperLogLog.defaultM)
  | ⟨.bytes b, _⟩ => HyperLogLog.fromBytes b
  | v => .error (.sketchBytes v)

/-! ## The operations on values -/

/-- What a held value becomes under another one, and whether it changes. -/
abbrev ValueUpdate := DataValue → DataValue → Except AggrError (Bool × DataValue)

/-- `and` on two values. -/
def andUpdate : ValueUpdate
  | ⟨.bool l, _⟩, ⟨.bool r, _⟩ => .ok (l != (l && r), .bool (l && r))
  | u, v => .error (.cannotCompute "and" u v)

/-- `or` on two values. -/
def orUpdate : ValueUpdate
  | ⟨.bool l, _⟩, ⟨.bool r, _⟩ => .ok (l != (l || r), .bool (l || r))
  | u, v => .error (.cannotCompute "or" u v)

/-- The insertion loop of `union`. -/
def insertAll (s : Std.TreeSet DataValue compare) :
    List DataValue → Bool × Std.TreeSet DataValue compare
  | [] => (false, s)
  | v :: items =>
    let (inserted, out) := insertAll (s.insert v) items
    (!s.contains v || inserted, out)

variable (left right : DataValue)

/-- `union` on two values.  A list on the left is turned into a set before anything is compared, and
stays one even when nothing is inserted. -/
def unionUpdate : Except AggrError (Bool × DataValue) :=
  match left.collectSet, right.elements with
  | some l, some items =>
    let (inserted, out) := insertAll l items
    .ok (inserted, .set out)
  | _, _ => .error (.cannotComputeFor "union" right)

/-- `intersection` on two values, with the same conversion of the left side. -/
def intersectionUpdate : Except AggrError (Bool × DataValue) :=
  match left.collectSet, right.collectSet with
  | some l, some s =>
    let newSet := Std.TreeSet.ofList (l.toList.filter s.contains) compare
    if l.size = newSet.size then .ok (false, .set l) else .ok (true, .set newSet)
  | _, _ => .error (.cannotComputeFor "intersection" right)

/-- The cost of a `min_cost` operand, out of the two lists being compared. -/
def costOf (prev cur : List DataValue) : List DataValue → Except AggrError F64
  | [_, cost] =>
    match cost.getFloat with
    | some f => .ok f
    | none => .error .numericalCosts
  | _ => .error (.pairRequired prev cur)

/-- `min_cost` on two values: the incumbent stays unless its cost fails to be at most the
newcomer's. -/
def minCostUpdate : Except AggrError (Bool × DataValue) :=
  match left, right with
  | ⟨.list _, _⟩, ⟨.list _, _⟩ => do
    let prev := left.elements.getD []
    let cur := right.elements.getD []
    let curCost ← costOf prev cur cur
    let prevCost ← costOf prev cur prev
    return if prevCost.le curCost then (false, left) else (true, right)
  | u, v => .error (.cannotCompute "min_cost" u v)

/-- `shortest` on two values. -/
def shortestUpdate : ValueUpdate
  | ⟨.list l, hl⟩, ⟨.list r, hr⟩ =>
    if r.length < l.length then .ok (true, ⟨.list r, hr⟩) else .ok (false, ⟨.list l, hl⟩)
  | u, v => .error (.cannotCompute "shortest" u v)

/-- `bit_and` and `bit_or` on two values; the empty byte string is the identity seed. -/
def bitUpdate (name : String) (f : UInt8 → UInt8 → UInt8) : ValueUpdate
  | ⟨.bytes left, _⟩, ⟨.bytes right, _⟩ =>
    if left = [] then .ok (right != [], .bytes right)
    else if left.length ≠ right.length then .error (.sameLengths name left right)
    else
      let (changed, out) := foldBytes f left right
      .ok (changed, .bytes out)
  | u, v => .error (.cannotApply name u v)

/-- `hll_union` on two values. -/
def hllUnionUpdate : Except AggrError (Bool × DataValue) := do
  let l ← asHll left
  let r ← asHll right
  let (changed, merged) := l.merge r
  return (changed, if changed then merged.toValue else left)

/-! ## The operations on accumulators -/

/-- What the operations without a sentinel of their own do with absent operands: an absent right
side changes nothing, an absent left side takes the right one. -/
def updateWith (op : ValueUpdate) : MeetAccum → MeetAccum → Except AggrError (Bool × MeetAccum)
  | left, .empty => .ok (false, left)
  | .empty, right => .ok (true, right)
  | .value l, .value r =>
    match op l r with
    | .error e => .error e
    | .ok (changed, l) => .ok (changed, .value l)

/-- `min` and `max`: `Null` is never a candidate, and `wins` says when the newcomer does. -/
def extremumUpdate (name : String) (wins : Num → Num → Bool) :
    MeetAccum → MeetAccum → Except AggrError (Bool × MeetAccum)
  | left, .empty => .ok (false, left)
  | left, .value ⟨.null, _⟩ => .ok (false, left)
  | .empty, right => .ok (true, right)
  | .value ⟨.null, _⟩, right => .ok (true, right)
  | .value ⟨.num l, hl⟩, .value ⟨.num r, hr⟩ =>
    if wins r l then .ok (true, .value ⟨.num r, hr⟩) else .ok (false, .value ⟨.num l, hl⟩)
  | _, _ => .error (.nonNumerical name)

/-- The resolved meet operations (`MeetAggr`). -/
inductive MeetAggr where
  | and
  | or
  | union
  | intersection
  | min
  | max
  | minCost
  | shortest
  | choice
  | bitAnd
  | bitOr
  | hllUnion
  deriving DecidableEq

namespace MeetAggr

def initVal : MeetAggr → MeetAccum
  | .and => .value (.bool true)
  | .or => .value (.bool false)
  | .union => .value (.set ∅)
  | .intersection => .empty
  | .min => .empty
  | .max => .empty
  | .minCost => .empty
  | .shortest => .empty
  | .choice => .empty
  | .bitAnd => .value (.bytes [])
  | .bitOr => .value (.bytes [])
  | .hllUnion => .value (HyperLogLog.new HyperLogLog.defaultM).toValue

def update : MeetAggr → MeetAccum → MeetAccum → Except AggrError (Bool × MeetAccum)
  | .and => updateWith andUpdate
  | .or => updateWith orUpdate
  | .union => updateWith unionUpdate
  | .intersection => updateWith intersectionUpdate
  | .min => extremumUpdate "min" fun r l => r.cmp l == .lt
  | .max => extremumUpdate "max" fun r l => r.cmp l == .gt
  | .minCost => updateWith minCostUpdate
  | .shortest => updateWith shortestUpdate
  | .choice => updateWith fun l _ => .ok (false, l)
  | .bitAnd => updateWith (bitUpdate "bit_and" (· &&& ·))
  | .bitOr => updateWith (bitUpdate "bit_or" (· ||| ·))
  | .hllUnion => updateWith hllUnionUpdate

end MeetAggr

/-! ## Head signatures -/

/-- Meet or ordinary fold (`AggrKind`). -/
inductive AggrKind where
  | meet
  | normal
  deriving DecidableEq

/-- A named aggregation (`Aggregation`). -/
structure Aggregation where
  /-- The user-facing name. -/
  name : String
  /-- Whether it is a meet. -/
  kind : AggrKind

/-- One position of a rule head (`HeadAggrSlot`). -/
inductive HeadAggrSlot where
  | plain
  | aggregated (aggr : Aggregation) (args : List DataValue)

def HeadAggrSlot.isAggregated : HeadAggrSlot → Bool
  | .plain => false
  | .aggregated .. => true

/-- `meet_op`: the operation a name stands for, if it is a meet. -/
def meetOp (a : Aggregation) : Option MeetAggr :=
  match a.name with
  | "and" => some .and
  | "or" => some .or
  | "union" => some .union
  | "intersection" => some .intersection
  | "min" => some .min
  | "max" => some .max
  | "min_cost" => some .minCost
  | "shortest" => some .shortest
  | "choice" => some .choice
  | "bit_and" => some .bitAnd
  | "bit_or" => some .bitOr
  | "hll_union" => some .hllUnion
  | _ => none

end Kyzo

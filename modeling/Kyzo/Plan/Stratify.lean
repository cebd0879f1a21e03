import Kyzo.Plan.Graph
import Kyzo.Plan.Program

/-!
# The stratifier

`exec/plan/stratify.rs`: the dependency graph of a program with its poisoned edges, the refusal of a
poisoned edge inside a recursive family, and the distribution of the rules into strata.
-/

namespace Kyzo

open Std

inductive StratifierInvariantError where
  | nodeInNoScc
  | ruleNotSorted
  | stratumOutOfRange

/-- What `into_stratified_program` refuses with. -/
inductive StratifyError where
  | unStratifiable (name : Symbol) (scc : List Symbol)
  | graph (e : GraphInvariantError)
  | invariant (e : StratifierInvariantError)
  | tier (e : TierError)

/-! ## The dependency graph -/

/-- `NormalFormAtom::contained_rules`: the rules an atom reads, with the flag of a negated read. -/
def NormalFormAtom.containedRules : NormalFormAtom → List (Symbol × Bool)
  | .rule r => [(r.name, false)]
  | .negatedRule r => [(r.name, true)]
  | .relation _ | .negatedRelation _ | .predicate _ | .unification _ | .search _ => []

def Aggregation.isMeet (a : Aggregation) : Bool := a.kind = .meet

/-- A slot that is plain or a meet. -/
def HeadAggrSlot.isMeetOrPlain : HeadAggrSlot → Bool
  | .plain => true
  | .aggregated aggr _ => aggr.isMeet

/-- `aggregation_character`: whether any head position is aggregated, and whether then all that are
use a meet. -/
def aggregationCharacter (rules : List NormalFormInlineRule) : Bool × Bool :=
  let hasAggr := rules.any fun rule => rule.aggr.any (·.isAggregated)
  (hasAggr, hasAggr && rules.all fun rule => rule.aggr.all (·.isMeetOrPlain))

namespace NormalFormProgram

variable (p : NormalFormProgram)

/-- The heads all of whose rules aggregate with meets. -/
def meetRules : TreeSet Symbol :=
  .ofList <| p.iterAll.filterMap fun (k, ruleset) =>
    match ruleset with
    | .rules rules => if (aggregationCharacter rules).2 then some k else none
    | .fixed _ => none

/-- The heads that are fixed rules. -/
def fixedRules : TreeSet Symbol :=
  .ofList <| p.iterAll.filterMap fun (k, ruleset) =>
    match ruleset with
    | .rules _ => none
    | .fixed _ => some k

/-- The edge that a read adds to the dependencies of `k`, or whose flag it raises. -/
def addRead (k : Symbol) (hasAggr isMeet : Bool)
    (ret : TreeMap Symbol Bool) (read : Symbol × Bool) : TreeMap Symbol Bool :=
  let (foundKey, isNegated) := read
  let foundKeyIsMeet := decide (foundKey ∈ p.meetRules ∧ foundKey ≠ k)
  let foundKeyIsFixedRule := decide (foundKey ∈ p.fixedRules)
  match ret[foundKey]? with
  | none =>
    let poisoned :=
      if hasAggr then
        if isMeet ∧ k = foundKey then foundKeyIsFixedRule || isNegated else true
      else foundKeyIsFixedRule || foundKeyIsMeet || isNegated
    ret.insert foundKey poisoned
  | some old =>
    let newVal :=
      if hasAggr then
        if isMeet ∧ k = foundKey then foundKeyIsFixedRule || foundKeyIsMeet || isNegated else true
      else foundKeyIsFixedRule || foundKeyIsMeet || isNegated
    ret.insert foundKey (old || newVal)

/-- The dependencies of one definition. -/
def dependencies (k : Symbol) : NormalFormRulesOrFixed → TreeMap Symbol Bool
  | .rules ruleset =>
    let (hasAggr, isMeet) := aggregationCharacter ruleset
    (ruleset.flatMap fun rule => rule.body.flatMap (·.containedRules)).foldl
      (p.addRead k hasAggr isMeet) ∅
  | .fixed fixed =>
    fixed.ruleArgs.foldl (fun ret rel =>
      match rel with
      | .inMem name _ => ret.insert name true
      | .stored .. | .namedStored .. => ret) ∅

/-- `convert_normal_form_program_to_graph`. -/
def toGraph : StratifiedGraph Symbol :=
  collect <| p.iterAll.map fun (k, ruleset) => (k, p.dependencies k ruleset)

end NormalFormProgram

def reduceToGraph (g : StratifiedGraph Symbol) : Graph Symbol :=
  g.map fun _ tos => tos.keys

/-! ## The refusal and the condensation -/

def verifyNoCycle (g : StratifiedGraph Symbol) (sccs : List (List Symbol)) :
    Except StratifyError Unit :=
  g.toList.forM fun (k, vs) => sccs.forM fun scc =>
    if k ∈ scc then
      vs.toList.forM fun (v, negated) =>
        if negated ∧ v ∈ scc then .error (.unStratifiable v scc) else .ok ()
    else .ok ()

/-- The component of each node. -/
def sccIndices (sccs : List (List Symbol)) : TreeMap Symbol ℕ := positions sccs

/-- The edges of one node, added to those of its component. -/
def reduceEdges (indices : TreeMap Symbol ℕ) (fromIdx : ℕ) (cur : TreeMap ℕ Bool)
    (tos : List (Symbol × Bool)) : TreeMap ℕ Bool :=
  tos.foldl (fun cur (tgt, poisoned) =>
    match indices[tgt]? with
    | none => cur
    | some toIdx =>
      if fromIdx = toIdx then cur
      else
        match cur[toIdx]? with
        | none => cur.insert toIdx poisoned
        | some old => cur.insert toIdx (old || poisoned)) cur

def makeSccReducedGraph (sccs : List (List Symbol)) (graph : StratifiedGraph Symbol) :
    Except StratifyError (TreeMap Symbol ℕ × StratifiedGraph ℕ) := do
  let indices := sccIndices sccs
  let reduced ← graph.toList.foldlM (fun (ret : StratifiedGraph ℕ) (fr, tos) =>
    match indices[fr]? with
    | none => .error (.invariant .nodeInNoScc)
    | some fromIdx =>
      .ok (ret.insert fromIdx
        (reduceEdges indices fromIdx ((ret.get? fromIdx).getD ∅) tos.toList))) ∅
  return (indices, reduced)

/-! ## Strata -/

/-- The place of each component in a list of strata. -/
def stratumOf (strata : List (List ℕ)) : TreeMap ℕ ℕ := positions strata

/-- The last use of every store. -/
def storeLifetimes (graph : StratifiedGraph Symbol) (indices : TreeMap Symbol ℕ)
    (execStratumOf : TreeMap ℕ ℕ) : StoreLifetimes :=
  graph.toList.foldl (fun lifetimes (fr, tos) =>
    match (indices.get? fr).bind execStratumOf.get? with
    | some frExecStratum =>
      tos.keys.foldl (fun lifetimes tgt =>
        StoreLifetimes.noteUse lifetimes (.muggle tgt) frExecStratum) lifetimes
    | none => lifetimes) ∅

/-- One definition goes to the stratum of its component, if it has one. -/
def distribute (indices : TreeMap Symbol ℕ) (revStratumOf : TreeMap ℕ ℕ)
    (strata : List NormalFormStratum) (row : Symbol × NormalFormRulesOrFixed) :
    Except StratifyError (List NormalFormStratum) :=
  match indices[row.1]? with
  | none => .ok strata
  | some component =>
    match revStratumOf[component]? with
    | none => .error (.invariant .ruleNotSorted)
    | some revIdx =>
      match strata[revIdx]? with
      | none => .error (.invariant .stratumOutOfRange)
      | some stratum => .ok (strata.set revIdx (stratum.insert row.1 row.2))

def NormalFormProgram.intoStratifiedProgram (p : NormalFormProgram) :
    Except StratifyError (StratifiedNormalFormProgram × StoreLifetimes) := do
  let reachable := reachableComponents (reduceToGraph p.toGraph) p.entryName
  let stratifiedGraph : StratifiedGraph Symbol := p.toGraph.filter fun k _ => k ∈ reachable
  let graph : Graph Symbol := (reduceToGraph p.toGraph).filter fun k _ => k ∈ reachable
  let sccs ← (stronglyConnectedComponents graph).mapError StratifyError.graph
  verifyNoCycle stratifiedGraph sccs
  let (invertIndices, reducedGraph) ← makeSccReducedGraph sccs stratifiedGraph
  let sortResult ← (generalizedKahn reducedGraph sccs.length).mapError StratifyError.graph
  let lifetimes := storeLifetimes stratifiedGraph invertIndices (stratumOf sortResult.reverse)
  let reversedStrata ← p.iterAll.foldlM (distribute invertIndices (stratumOf sortResult))
    (List.replicate sortResult.length ∅)
  let stratified ← (StratifiedNormalFormProgram.fromReverseExecutionOrder reversedStrata
    p.disableMagicRewrite).mapError StratifyError.tier
  return (stratified, lifetimes)

end Kyzo

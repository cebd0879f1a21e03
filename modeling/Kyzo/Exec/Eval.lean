import Kyzo.Exec.DeltaStore
import Kyzo.Plan.Stratify

/-!
# Semi-naive evaluation of a stratum

`exec/fixpoint/eval.rs`: the rules of a stratum run epoch by epoch against the delta stores.  Epoch
0 derives from the totals; a later epoch runs, for every occurrence of a store with a delta, one
pass that reads the delta at this occurrence and totals at the others.  What an epoch derives is
merged at a barrier, and the stratum is done when no store has a delta.
-/

namespace Kyzo

/-! ## Refusals -/

/-- `BudgetDimension`, without the wall clock. -/
inductive BudgetDimension where
  | derivedTuples
  | inFlightDerivations
  | epochs

/-- `LimitExceeded`: "query budget exceeded: .. spent .. of ceiling ..". -/
structure LimitExceeded where
  dimension : BudgetDimension
  spent : ℕ
  ceiling : ℕ
  rule : Option MagicSymbol

inductive EvalInvariantError where
  | referencedRuleHasNoStore
  | mergedRuleHasNoStore
  | notMeet

/-- What evaluation refuses with; `β` is what rule bodies and fixed rules fail with. -/
inductive EvalError (β : Type) where
  | limit (e : LimitExceeded)
  | invariant (e : EvalInvariantError)
  | merge (e : MergeRefuse)
  | aggr (e : AggrError)
  | normalOnly (e : NormalOnlyAggregation)
  | body (e : β)

/-- An evaluation over rule bodies with errors of their own. -/
abbrev EvalM (β : Type) := Except (EvalError β)

/-! ## The ticker -/

def interruptStride : ℕ := 64

structure InterruptCountdown where
  left : ℕ
  pos : 0 < left

namespace InterruptCountdown

def fresh : InterruptCountdown := ⟨interruptStride, by decide⟩

/-- `InterruptCountdown::tick`: whether the stride elapsed, and the countdown left. -/
def tick (c : InterruptCountdown) : Bool × InterruptCountdown :=
  if h : 0 < c.left - 1 then (false, ⟨c.left - 1, h⟩) else (true, fresh)

end InterruptCountdown

/-- `InterruptTicker`.  A ticker without a ceiling never refuses. -/
structure InterruptTicker where
  countdown : InterruptCountdown
  baseline : ℕ
  ceiling : Option ℕ
  rule : MagicSymbol

namespace InterruptTicker

/-- `Budget::ticker`. -/
def new (ceiling : Option ℕ) (baseline : ℕ) (rule : MagicSymbol) : InterruptTicker :=
  ⟨.fresh, baseline, ceiling, rule⟩

def tick {β : Type} (t : InterruptTicker) (inFlight : ℕ) : EvalM β InterruptTicker :=
  let (elapsed, countdown) := t.countdown.tick
  match elapsed, t.ceiling with
  | true, some ceiling =>
    let spent := t.baseline + inFlight
    if ceiling < spent then
      .error (.limit ⟨.inFlightDerivations, spent, ceiling, some t.rule⟩)
    else .ok { t with countdown }
  | _, _ => .ok { t with countdown }

end InterruptTicker

/-! ## The query limiter -/

structure RowLimit where
  numToTake : Option ℕ
  numToSkip : Option ℕ

structure QueryLimiter where
  total : Option ℕ
  skip : Option ℕ
  counter : ℕ

namespace QueryLimiter

def new (limit : RowLimit) : QueryLimiter := ⟨limit.numToTake, limit.numToSkip, 0⟩

variable (l : QueryLimiter)

def enabled : Bool := l.total.isSome

def incrAndShouldStop : Bool × QueryLimiter :=
  match l.total with
  | some limit => (limit ≤ l.counter + 1, { l with counter := l.counter + 1 })
  | none => (false, l)

def isStopped : Bool :=
  match l.total with
  | some limit => limit ≤ l.counter
  | none => false

def shouldSkipNext : Bool :=
  match l.skip with
  | none => false
  | some i => l.counter < i

end QueryLimiter

/-! ## Rules -/

/-- The stores of a query by name. -/
abbrev Stores := MagicSymbol → Option EpochStore

def storeOf {β : Type} (stores : Stores) (name : MagicSymbol) : EvalM β EpochStore :=
  match stores name with
  | some s => .ok s
  | none => .error (.invariant .referencedRuleHasNoStore)

abbrev AtomOccurrence := ℕ

/-- `RuleBody`: what a pass hands to its callback, in order, and where it fails; and the stores that
the positive atoms read, by occurrence. -/
structure RuleBody (β : Type) where
  forEachDerivation : Stores → Option AtomOccurrence → List (Except β Tuple)
  containedRules : List (AtomOccurrence × MagicSymbol)

structure FixedRuleEval (β : Type) where
  run : Stores → Option ℕ → ℕ → Except β RegularTempStore

inductive HeadAggrKind where
  | none
  | normal
  | meet

/-- The classification of `EvalRuleSet::new`. -/
def HeadAggrKind.ofSignature (aggr : List HeadAggrSlot) : HeadAggrKind :=
  if !aggr.any (·.isAggregated) then .none
  else if aggr.all (·.isMeetOrPlain) then .meet
  else .normal

structure EvalRuleSet (β : Type) where
  aggr : List HeadAggrSlot
  bodies : List (RuleBody β)
  nonempty : bodies ≠ []

/-- The kind of a rule set's head. -/
def EvalRuleSet.kind {β : Type} (r : EvalRuleSet β) : HeadAggrKind := .ofSignature r.aggr

inductive EvalDefinition (β : Type) where
  | rules (r : EvalRuleSet β)
  | fixed (arity : ℕ) (rule : FixedRuleEval β)

/-- `EvalStratum`: the definitions by name, in canonical order. -/
structure EvalStratum (β : Type) where
  defs : List (MagicSymbol × EvalDefinition β)
  nodup : (defs.map Prod.fst).Nodup

def MagicSymbol.isProgEntry : MagicSymbol → Bool
  | .muggle inner => inner.kind = .entry
  | .magic .. | .input .. | .sup .. => false

/-! ## The passes of a rule -/

variable {β : Type}

/-- The derivations of an epoch that reads totals. -/
def totalPasses (stores : Stores) (bodies : List (RuleBody β)) : List (EvalM β Tuple) :=
  bodies.flatMap fun body => (body.forEachDerivation stores none).map (·.mapError .body)

/-- The derivations of an incremental epoch: one pass for every occurrence whose store has a
delta. -/
def deltaPasses (stores : Stores) (bodies : List (RuleBody β)) : List (EvalM β Tuple) :=
  bodies.flatMap fun body => body.containedRules.flatMap fun (occurrence, name) =>
    match storeOf stores name with
    | .error e => [.error e]
    | .ok store =>
      if store.hasDelta then
        (body.forEachDerivation stores (some occurrence)).map (·.mapError .body)
      else []

/-- Run a callback over derivations until it stops; whether it did. -/
def consume {σ : Type} (f : σ → Tuple → EvalM β (σ × Bool)) :
    σ → List (EvalM β Tuple) → EvalM β (σ × Bool)
  | s, [] => .ok (s, false)
  | _, .error e :: _ => .error e
  | s, .ok item :: rest => do
    let (s, stop) ← f s item
    if stop then return (s, true) else consume f s rest

/-! ## Plain heads -/

/-- What the callback of a plain rule carries. -/
structure PlainState where
  ticker : InterruptTicker
  limiter : QueryLimiter
  out : RegularTempStore

/-- Keep a row that is new to the epoch. -/
def admitRow (checkLimit : Bool) (s : PlainState) (item : Tuple) : PlainState × Bool :=
  if s.out.existsKey item then (s, false)
  else if checkLimit then
    let out := if s.limiter.shouldSkipNext then s.out.putWithSkip item else s.out.put item
    let (stop, limiter) := s.limiter.incrAndShouldStop
    ({ s with out, limiter }, stop)
  else ({ s with out := s.out.put item }, false)

/-- The callback of a plain rule; `known` is what the rule's total holds already. -/
def derivePlain (known : Tuple → Bool) (checkLimit : Bool) (s : PlainState) (item : Tuple) :
    EvalM β (PlainState × Bool) := do
  let ticker ← s.ticker.tick s.out.len
  if known item then return ({ s with ticker }, false)
  else return admitRow checkLimit { s with ticker } item

/-- What an epoch of one rule gives: whether it engaged the limiter, the limiter, the out-store. -/
abbrev RuleEpoch := Bool × QueryLimiter × TempStore

section

variable (name : MagicSymbol) (rules : EvalRuleSet β) (stores : Stores) (limiter : QueryLimiter)
  (ceiling : Option ℕ) (baseline : ℕ)

def initialPlainEval : EvalM β RuleEpoch := do
  let checkLimit := limiter.enabled && name.isProgEntry
  let (s, stopped) ← consume (derivePlain (fun _ => false) checkLimit)
    ⟨.new ceiling baseline name, limiter, .empty⟩ (totalPasses stores rules.bodies)
  return (stopped || checkLimit, s.limiter, .normal s.out)

def incrementalPlainEval : EvalM β RuleEpoch := do
  let prevStore ← storeOf stores name
  let checkLimit := limiter.enabled && name.isProgEntry
  let (s, stopped) ← consume (derivePlain prevStore.existsKey checkLimit)
    ⟨.new ceiling baseline name, limiter, .empty⟩ (deltaPasses stores rules.bodies)
  return (stopped || checkLimit, s.limiter, .normal s.out)

/-! ## Meet heads -/

/-- Errors of the meet stores, as evaluation reports them. -/
def liftAggr {α : Type} (x : Except AggrError α) : EvalM β α := x.mapError .aggr

/-- The callback of a meet rule at epoch 0. -/
def deriveMeet (s : InterruptTicker × MeetAggrStore) (item : Tuple) :
    EvalM β ((InterruptTicker × MeetAggrStore) × Bool) := do
  let ticker ← s.1.tick s.2.len
  let (_, out) ← liftAggr (s.2.meetPut item)
  return ((ticker, out), false)

def initialMeetEval : EvalM β RuleEpoch := do
  let out ← (MeetAggrStore.new rules.aggr).mapError EvalError.normalOnly
  let ((_, out), _) ← consume deriveMeet (.new ceiling baseline name, out)
    (totalPasses stores rules.bodies)
  -- The store is empty here, so its refusal to seed a store that holds groups never speaks.
  let out := if out.byGroup.isEmpty && rules.aggr.all (·.isAggregated) then
    out.seedIdentity.getD out else out
  return (false, limiter, .meetAggr out)

def EpochStore.meetTotal (s : EpochStore) : EvalM β (MeetSpec × LevelStack MeetLevel) :=
  match s.kind with
  | .meet spec levels => .ok (spec, levels)
  | .normal _ => .error (.invariant .notMeet)

/-- What the callback of an incremental meet rule carries. -/
structure MeetState where
  ticker : InterruptTicker
  out : MeetAggrStore
  /-- The groups whose fold the barrier would take, counted as they become so. -/
  effective : ℕ

/-- The callback of an incremental meet rule. -/
def deriveMeetAgain (spec : MeetSpec) (levels : LevelStack MeetLevel) (s : MeetState)
    (item : Tuple) : EvalM β (MeetState × Bool) := do
  let (newly, out) ← liftAggr (s.out.meetPutAdmissionFaithful item spec levels)
  let effective := if newly then s.effective + 1 else s.effective
  let ticker ← s.ticker.tick effective
  return (⟨ticker, out, effective⟩, false)

def incrementalMeetEval : EvalM β RuleEpoch := do
  let out ← (MeetAggrStore.new rules.aggr).mapError EvalError.normalOnly
  let store ← storeOf stores name
  let (spec, levels) ← store.meetTotal
  let (s, _) ← consume (deriveMeetAgain spec levels) ⟨.new ceiling baseline name, out, 0⟩
    (deltaPasses stores rules.bodies)
  return (false, limiter, .meetAggr s.out)

end

/-! ## Heads with an ordinary aggregation -/

/-- The ordinary aggregations (`NormalAggr`): fold state, `normal_op`, `set` and `get`. -/
structure NormalAggr where
  State : Type
  normalOp : Aggregation → List DataValue → Except AggrError State
  set : State → DataValue → Except AggrError State
  get : State → Except AggrError DataValue

namespace NormalAggr

variable (ops : NormalAggr)

section

variable (signature : List HeadAggrSlot)

/-- The grouping positions of a head. -/
def keyIndices : List ℕ :=
  (List.range signature.length).filter fun i => !signature[i]?.any (·.isAggregated)

/-- The aggregated positions of a head with their aggregations. -/
def valSpecs : List (ℕ × Aggregation × List DataValue) :=
  (List.range signature.length).filterMap fun i =>
    match signature[i]? with
    | some (HeadAggrSlot.aggregated aggr args) => some (i, aggr, args)
    | some HeadAggrSlot.plain | none => none

/-- Fresh fold states for a group. -/
def freshOps : Except AggrError (List ops.State) :=
  (valSpecs signature).mapM fun (_, aggr, args) => ops.normalOp aggr args

/-- Set every fold of a group from a row. -/
def setAll (item : Tuple) (states : List ops.State) : Except AggrError (List ops.State) :=
  (states.zip (valSpecs signature)).mapM fun (op, i, _) => ops.set op (item.getD i .null)

end

/-- What the callback carries: the ticker and the groups so far. -/
structure GroupState where
  ticker : InterruptTicker
  work : Std.TreeMap Tuple (List ops.State) compare

/-- The callback of a rule with an ordinary aggregation. -/
def deriveGroup (signature : List HeadAggrSlot) (s : ops.GroupState) (item : Tuple) :
    EvalM β (ops.GroupState × Bool) := do
  let ticker ← s.ticker.tick s.work.size
  let key : Tuple := (keyIndices signature).map fun i => item.getD i .null
  let states ← match s.work[key]? with
    | some states => pure states
    | none => liftAggr (ops.freshOps signature)
  let states ← liftAggr (ops.setAll signature item states)
  return (⟨ticker, s.work.insert key states⟩, false)

/-- The row of a group. -/
def groupRow (signature : List HeadAggrSlot) (key : Tuple) (states : List ops.State) :
    Except AggrError Tuple := do
  let row := MeetLayout.fill (List.replicate signature.length .null) (keyIndices signature) key
  let vals ← states.mapM ops.get
  return MeetLayout.fill row ((valSpecs signature).map Prod.fst) vals

/-- The loop over the groups. -/
def emitGroups (signature : List HeadAggrSlot) (checkLimit : Bool) :
    List (Tuple × List ops.State) → PlainState → EvalM β (PlainState × Bool)
  | [], s => .ok (s, false)
  | (key, states) :: rest, s => do
    let row ← liftAggr (ops.groupRow signature key states)
    let ticker ← s.ticker.tick s.out.len
    let (s, stop) := if checkLimit then admitRow true { s with ticker } row
      else ({ s with ticker, out := s.out.put row }, false)
    if stop then return (s, true) else emitGroups signature checkLimit rest s

def initialNormalAggrEval (name : MagicSymbol) (rules : EvalRuleSet β) (stores : Stores)
    (limiter : QueryLimiter) (ceiling : Option ℕ) (baseline : ℕ) :
    EvalM β RuleEpoch := do
  let signature := rules.aggr
  let checkLimit := limiter.enabled && name.isProgEntry
  let (s, _) ← consume (ops.deriveGroup signature) ⟨.new ceiling baseline name, ∅⟩
    (totalPasses stores rules.bodies)
  let out ← if s.work.isEmpty && (keyIndices signature).isEmpty &&
    !(valSpecs signature).isEmpty then
      do
        let states ← liftAggr (ops.freshOps signature)
        let emptyFold ← liftAggr (states.mapM ops.get)
        pure (RegularTempStore.empty.put emptyFold)
    else pure RegularTempStore.empty
  let (s, stopped) ← ops.emitGroups signature checkLimit s.work.toList ⟨s.ticker, limiter, out⟩
  return (stopped || checkLimit, s.limiter, .normal s.out)

end NormalAggr

/-! ## Epochs -/

section

variable (ops : NormalAggr)

/-- One definition's epoch. -/
def execution (epoch : ℕ) (stores : Stores) (ceiling : Option ℕ) (baseline : ℕ)
    (limiter : QueryLimiter) (name : MagicSymbol) : EvalDefinition β →
      EvalM β RuleEpoch
  | .rules r =>
    match r.kind, epoch with
    | .none, 0 => initialPlainEval name r stores limiter ceiling baseline
    | .none, _ + 1 => incrementalPlainEval name r stores limiter ceiling baseline
    | .normal, 0 => ops.initialNormalAggrEval name r stores limiter ceiling baseline
    | .normal, _ + 1 => .ok (false, limiter, .normal .empty)
    | .meet, 0 => initialMeetEval name r stores limiter ceiling baseline
    | .meet, _ + 1 => incrementalMeetEval name r stores limiter ceiling baseline
  | .fixed _ rule =>
    match epoch with
    | 0 => ((rule.run stores ceiling baseline).mapError .body).map fun out =>
        (false, limiter, .normal out)
    | _ + 1 => .ok (false, limiter, .normal .empty)

/-- The entry rules under a limit run one after another until the take-count is reached. -/
def runEntries (exec : QueryLimiter → MagicSymbol → EvalDefinition β →
      EvalM β RuleEpoch) :
    QueryLimiter → List (MagicSymbol × EvalDefinition β) →
      EvalM β (Bool × QueryLimiter × List (MagicSymbol × TempStore))
  | limiter, [] => .ok (false, limiter, [])
  | limiter, (name, d) :: rest => do
    let (engaged, limiter, out) ← exec limiter name d
    if limiter.isStopped then return (engaged, limiter, [(name, out)])
    else
      let (engaged', limiter, outs) ← runEntries exec limiter rest
      return (engaged || engaged', limiter, (name, out) :: outs)

/-- `collect_non_entry_batch`: the other rules, which leave the limiter alone. -/
def collectNonEntryBatch (exec : QueryLimiter → MagicSymbol → EvalDefinition β →
      EvalM β RuleEpoch) (limiter : QueryLimiter)
    (defs : List (MagicSymbol × EvalDefinition β)) :
    EvalM β (Bool × List (MagicSymbol × TempStore)) := do
  let outs ← defs.mapM fun (name, d) =>
    (exec limiter name d).map fun (engaged, _, out) => (engaged, name, out)
  return (outs.any Prod.fst, outs.map Prod.snd)

/-- What the rules of a stratum derive in one epoch: whether one engaged the limiter, the limiter,
and the out-stores by name. -/
def runEpoch (epoch : ℕ) (defs : List (MagicSymbol × EvalDefinition β)) (stores : Stores)
    (ceiling : Option ℕ) (baseline : ℕ) (limiter : QueryLimiter) :
    EvalM β (Bool × QueryLimiter × (MagicSymbol → Option TempStore)) := do
  let exec := execution ops epoch stores ceiling baseline
  let isEntry := fun e : MagicSymbol × EvalDefinition β => limiter.enabled && e.1.isProgEntry
  let (engaged, limiter', entries) ← runEntries exec limiter (defs.filter isEntry)
  let (engaged', others) ← collectNonEntryBatch exec limiter' (defs.filter (!isEntry ·))
  return (engaged || engaged', limiter', fun name => (entries ++ others).lookup name)

/-! ## The barrier -/

/-- The merge barrier, in the order of the names: the stores it leaves, how many rows it took, and
whether a store has a delta. -/
def barrier (toMerge : MagicSymbol → Option TempStore) :
    List MagicSymbol → Stores → EvalM β (Stores × ℕ × Bool)
  | [], stores => .ok (stores, 0, false)
  | name :: rest, stores =>
    match toMerge name with
    | none => barrier toMerge rest stores
    | some out =>
      match stores name with
      | none => .error (.invariant .mergedRuleHasNoStore)
      | some store =>
        match store.mergeIn out with
        | (.error e, _) => .error (.merge e)
        | (.ok admitted, store) => do
          let (stores, n, changed) ← barrier toMerge rest (Function.update stores name (some store))
          return (stores, admitted + n, store.hasDelta || changed)

/-! ## The fixpoint -/

/-- `Budget`, without deadline and cancellation. -/
structure Budget where
  epochCeiling : ℕ
  derivedTupleCeiling : Option ℕ
  pos : 0 < epochCeiling

/-- What an evaluation carries from epoch to epoch. -/
structure EvalState where
  stores : Stores
  limiter : QueryLimiter
  usedLimiter : Bool
  spentDerived : ℕ

/-- The refusal of the barrier. -/
def checkSpent (ceiling : Option ℕ) (spent : ℕ) : EvalM β Unit :=
  match ceiling with
  | some ceiling =>
    if ceiling < spent then .error (.limit ⟨.derivedTuples, spent, ceiling, none⟩) else .ok ()
  | none => .ok ()

/-- One epoch: what the rules derive, the barrier, and whether something changed. -/
def epochStep (budget : Budget) (stratum : EvalStratum β) (epoch : ℕ) (s : EvalState) :
    EvalM β (EvalState × Bool) := do
  let (engaged, limiter, toMerge) ← runEpoch ops epoch stratum.defs s.stores
    budget.derivedTupleCeiling s.spentDerived s.limiter
  let (stores, admitted, changed) ← barrier toMerge (stratum.defs.map Prod.fst) s.stores
  let spent := s.spentDerived + admitted
  checkSpent budget.derivedTupleCeiling spent
  return (⟨stores, limiter, s.usedLimiter || engaged, spent⟩, changed)

/-- The epochs from `epoch` on, `left` of them within the ceiling. -/
def epochLoop (budget : Budget) (stratum : EvalStratum β) : ℕ → ℕ → EvalState → EvalM β EvalState
  | 0, _, _ => .error (.limit ⟨.epochs, budget.epochCeiling, budget.epochCeiling, none⟩)
  | left + 1, epoch, s => do
    let (s, changed) ← epochStep ops budget stratum epoch s
    if changed then epochLoop budget stratum left (epoch + 1) s else return s

/-- `evaluate_stratum`: the stores and the spend it leaves, and whether the limiter was engaged. -/
def evaluateStratum (stratum : EvalStratum β) (stores : Stores) (limit : RowLimit)
    (budget : Budget) (spentDerived : ℕ) : EvalM β (Stores × ℕ × Bool) := do
  let s ← epochLoop ops budget stratum budget.epochCeiling 0
    ⟨stores, .new limit, false, spentDerived⟩
  return (s.stores, s.spentDerived, s.usedLimiter)

end

end Kyzo

import Kyzo.Exec.Stdlib
import Kyzo.Plan.Expr

/-!
# Evaluating expressions

`exec/expr/eval.rs` with the resolution of variables to columns in `kyzo_model::program::expr`.  A
plan resolves the variables of its expressions once, against the columns of the operator that holds
them, and evaluates by position from then on.  `Expr.evalWith` is the evaluator over any way of
reading a variable; read by name, it says what a resolved expression computes on a row.
-/

namespace Kyzo

open List Option Kyzo.Expr

/-- What evaluation refuses with. -/
inductive ExprFault where
  | unboundVariable (var : Symbol)
  | tupleTooShort (var : Symbol) (idx len : ℕ)
  | predicateType (val : DataValue)
  | noImplementation (op : String)
  | raised (e : OpError)

inductive Decision where
  | decided (val : DataValue)
  | continue
  | refused

namespace LazyOp

def identity : LazyOp → DataValue
  | .and => .bool true
  | .or => .bool false
  | .coalesce => .null

def decide (op : LazyOp) (val : DataValue) : Decision :=
  match op with
  | .and =>
    match val.getBool with
    | some true => .continue
    | some false => .decided (.bool false)
    | none => .refused
  | .or =>
    match val.getBool with
    | some false => .continue
    | some true => .decided (.bool true)
    | none => .refused
  | .coalesce => if val = .null then .continue else .decided val

end LazyOp

variable {frame : List Symbol}

namespace Expr

variable (lib : Library) {look : Symbol → BindingPos → Except ExprFault DataValue}

/-! ## The evaluator -/

section

variable (look)

mutual

/-- The recursion of `eval_expr`, over a way of reading variables. -/
def evalWith : Expr → Except ExprFault DataValue
  | .binding var pos => look var pos
  | .const val => .ok val
  | .apply op args => do
    let vals ← evalArgs args
    (lib.apply op vals).mapError .raised
  | .cond clauses => evalClauses clauses
  | .lazy op args => evalLazy op args
  | .unboundApply op _ => .error (.noImplementation op)

/-- The arguments of an operator, left to right. -/
def evalArgs : List Expr → Except ExprFault (List DataValue)
  | [] => .ok []
  | arg :: args => do
    let val ← evalWith arg
    let vals ← evalArgs args
    return val :: vals

/-- The clauses of a conditional. -/
def evalClauses : List (Expr × Expr) → Except ExprFault DataValue
  | [] => .ok .null
  | (test, val) :: clauses => do
    let testVal ← evalWith test
    match testVal.getBool with
    | some true => evalWith val
    | some false => evalClauses clauses
    | none => .error (.predicateType testVal)

/-- The arguments of a connective, up to the one that decides. -/
def evalLazy (op : LazyOp) : List Expr → Except ExprFault DataValue
  | [] => .ok op.identity
  | arg :: args => do
    let val ← evalWith arg
    match op.decide val with
    | .decided d => .ok d
    | .continue => evalLazy op args
    | .refused => .error (.predicateType val)

end

/-- The tail of `eval_pred`. -/
def predWith (e : Expr) : Except ExprFault Bool := do
  let val ← e.evalWith lib look
  match val.getBool with
  | some b => .ok b
  | none => .error (.predicateType val)

/-- The loop over the filters of an operator. -/
def filtersWith : List Expr → Except ExprFault Bool
  | [] => .ok true
  | f :: fs => do
    if ← f.predWith lib look then filtersWith fs else .ok false

end

/-- Reading a variable from a row by its position. -/
def readAt (row : Tuple) (var : Symbol) : BindingPos → Except ExprFault DataValue
  | .unresolved => .error (.unboundVariable var)
  | .resolved i =>
    match row[i]? with
    | some val => .ok val
    | none => .error (.tupleTooShort var i row.length)

def evalExpr (row : Tuple) (e : Expr) : Except ExprFault DataValue := e.evalWith lib (readAt row)

def evalPred (row : Tuple) (e : Expr) : Except ExprFault Bool := e.predWith lib (readAt row)

variable {env : Symbol → Option DataValue}

section

variable (env)

/-- Reading a variable by its name. -/
def readNamed (var : Symbol) (_ : BindingPos) : Except ExprFault DataValue :=
  match env var with
  | some val => .ok val
  | none => .error (.unboundVariable var)

/-- The value of an expression under names for values. -/
def evalIn (e : Expr) : Except ExprFault DataValue :=
  e.evalWith lib (readNamed env)

/-- The truth of an expression under names for values. -/
def predIn (e : Expr) : Except ExprFault Bool :=
  e.predWith lib (readNamed env)

end

/-! ## Resolution -/

/-- What the resolution of variables refuses with. -/
inductive FillError where
  | badBinding (var : Symbol)
  | noImplementation (op : String)

/-- The map from names to columns, in which a repeated name keeps its last column. -/
def position (var : Symbol) : List Symbol → Option ℕ
  | [] => none
  | b :: bs =>
    match position var bs with
    | some i => some (i + 1)
    | none => if b = var then some 0 else none

section

variable (frame)

mutual

def fillBindingIndices : Expr → Except FillError Expr
  | .binding var _ =>
    match position var frame with
    | some i => .ok (.binding var (.resolved i))
    | none => .error (.badBinding var)
  | .const val => .ok (.const val)
  | .apply op args => do
    let args ← fillArgs args
    return .apply op args
  | .lazy op args => do
    let args ← fillArgs args
    return .lazy op args
  | .cond clauses => do
    let clauses ← fillClauses clauses
    return .cond clauses
  | .unboundApply op _ => .error (.noImplementation op)

/-- The loop over arguments. -/
def fillArgs : List Expr → Except FillError (List Expr)
  | [] => .ok []
  | arg :: args => do
    let arg ← fillBindingIndices arg
    let args ← fillArgs args
    return arg :: args

/-- The loop over the clauses of a conditional. -/
def fillClauses : List (Expr × Expr) → Except FillError (List (Expr × Expr))
  | [] => .ok []
  | (test, val) :: clauses => do
    let test ← fillBindingIndices test
    let val ← fillBindingIndices val
    let clauses ← fillClauses clauses
    return (test, val) :: clauses

end

end

/-! ## What evaluation reads -/

lemma exists_position {v : Symbol} : (∃ i, position v frame = some i) ↔ v ∈ frame := by
  induction frame with
  | nil => simp [position]
  | cons b bs ih =>
    rw [mem_cons, ← ih]
    constructor
    · rintro ⟨i, hi⟩
      simp only [position] at hi
      split at hi
      · exact .inr ⟨_, ‹_›⟩
      · split at hi
        · exact .inl ‹b = v›.symm
        · cases hi
    · rintro (rfl | ⟨i, hi⟩)
      · cases hpos : position v bs with
        | some i => exact ⟨i + 1, by rw [position, hpos]⟩
        | none => exact ⟨0, by rw [position, hpos, if_pos rfl]⟩
      · exact ⟨i + 1, by rw [position, hi]⟩

lemma position_lt {v : Symbol} {i : ℕ} (h : position v frame = some i) : i < frame.length := by
  induction frame generalizing i with
  | nil => cases h
  | cons b bs ih =>
    simp only [position] at h
    split at h
    · cases h
      exact Nat.succ_lt_succ (ih ‹_›)
    · split at h
      · cases h
        exact Nat.zero_lt_succ _
      · cases h

/-- A collection adds the variables `own` to those it starts from. -/
def Collects (collect : List Symbol → Except ExprError (List Symbol)) (own : List Symbol) : Prop :=
  ∀ coll, ∃ vars, collect coll = .ok vars ∧ ∀ v, v ∈ vars ↔ v ∈ coll ∨ v ∈ own

namespace Collects

variable {f g : List Symbol → Except ExprError (List Symbol)} {own own' : List Symbol}

lemma nil : Collects .ok [] := fun coll => ⟨coll, rfl, by simp⟩

lemma bind (hf : Collects f own) (hg : Collects g own') :
    Collects (fun coll => f coll >>= g) (own ++ own') := by
  intro coll
  obtain ⟨mid, hmid, hmem⟩ := hf coll
  obtain ⟨vars, hvars, hmem'⟩ := hg mid
  refine ⟨vars, bind_eq_ok.mpr ⟨mid, hmid, hvars⟩, fun v => ?_⟩
  rw [hmem', hmem, mem_append]
  exact or_assoc

lemma mem_iff (hf : Collects f own) {coll vars : List Symbol} (h : f coll = .ok vars) (v : Symbol) :
    v ∈ vars ↔ v ∈ coll ∨ v ∈ own := by
  obtain ⟨vars', hvars', hmem⟩ := hf coll
  cases h.symm.trans hvars'
  exact hmem v

end Collects

mutual

/-- **The variables of an expression**: those that it adds to any collection, and those that its
resolution needs. -/
theorem exists_collects (e : Expr) {coll vars : List Symbol}
    (h : e.collectBindings coll = .ok vars) : ∃ own, Collects e.collectBindings own ∧
      ∀ frame, own ⊆ frame → ∃ e', e.fillBindingIndices frame = .ok e' := by
  match e with
  | .binding var _ =>
    refine ⟨[var], fun coll => ⟨_, rfl, fun v => ?_⟩, fun frame hsub => ?_⟩
    · rw [mem_insert_iff, mem_singleton, or_comm]
    · obtain ⟨i, hi⟩ := exists_position.mpr (hsub (.head _))
      exact ⟨.binding var (.resolved i), by simp [fillBindingIndices, hi]⟩
  | .const val => exact ⟨[], .nil, fun _ _ => ⟨.const val, by simp [fillBindingIndices]⟩⟩
  | .apply op args | .lazy op args =>
    obtain ⟨own, hown, hfill⟩ := exists_collectsArgs args h
    refine ⟨own, hown, fun frame hsub => ?_⟩
    obtain ⟨args', hargs⟩ := hfill frame hsub
    exact ⟨_, bind_eq_ok.mpr ⟨args', hargs, rfl⟩⟩
  | .cond clauses =>
    obtain ⟨own, hown, hfill⟩ := exists_collectsClauses clauses h
    refine ⟨own, hown, fun frame hsub => ?_⟩
    obtain ⟨clauses', hclauses⟩ := hfill frame hsub
    exact ⟨_, bind_eq_ok.mpr ⟨clauses', hclauses, rfl⟩⟩
  | .unboundApply _ _ => cases h

lemma exists_collectsArgs (args : List Expr) {coll vars : List Symbol}
    (h : collectBindingsArgs args coll = .ok vars) :
    ∃ own, Collects (collectBindingsArgs args) own ∧
      ∀ frame, own ⊆ frame → ∃ args', fillArgs frame args = .ok args' := by
  match args with
  | [] => exact ⟨[], .nil, fun _ _ => ⟨[], by simp [fillArgs]⟩⟩
  | arg :: args =>
    obtain ⟨mid, hmid, h⟩ := bind_ok h
    obtain ⟨own, hown, hfill⟩ := exists_collects arg hmid
    obtain ⟨own', hown', hfill'⟩ := exists_collectsArgs args h
    refine ⟨own ++ own', hown.bind hown', fun frame hsub => ?_⟩
    obtain ⟨hsub, hsub'⟩ := append_subset.mp hsub
    obtain ⟨arg', harg⟩ := hfill frame hsub
    obtain ⟨args', hargs⟩ := hfill' frame hsub'
    exact ⟨arg' :: args', bind_eq_ok.mpr ⟨_, harg, bind_eq_ok.mpr ⟨_, hargs, rfl⟩⟩⟩

lemma exists_collectsClauses (clauses : List (Expr × Expr)) {coll vars : List Symbol}
    (h : collectBindingsClauses clauses coll = .ok vars) :
    ∃ own, Collects (collectBindingsClauses clauses) own ∧
      ∀ frame, own ⊆ frame → ∃ clauses', fillClauses frame clauses = .ok clauses' := by
  match clauses with
  | [] => exact ⟨[], .nil, fun _ _ => ⟨[], by simp [fillClauses]⟩⟩
  | (test, val) :: clauses =>
    obtain ⟨mid, hmid, h⟩ := bind_ok h
    obtain ⟨mid', hmid', h⟩ := bind_ok h
    obtain ⟨own, hown, hfill⟩ := exists_collects test hmid
    obtain ⟨own', hown', hfill'⟩ := exists_collects val hmid'
    obtain ⟨own'', hown'', hfill''⟩ := exists_collectsClauses clauses h
    refine ⟨own ++ (own' ++ own''), hown.bind (hown'.bind hown''), fun frame hsub => ?_⟩
    obtain ⟨hsub, hsub'⟩ := append_subset.mp hsub
    obtain ⟨hsub', hsub''⟩ := append_subset.mp hsub'
    obtain ⟨test', htest⟩ := hfill frame hsub
    obtain ⟨val', hval⟩ := hfill' frame hsub'
    obtain ⟨clauses', hclauses⟩ := hfill'' frame hsub''
    exact ⟨(test', val') :: clauses', bind_eq_ok.mpr ⟨_, htest, bind_eq_ok.mpr ⟨_, hval,
      bind_eq_ok.mpr ⟨_, hclauses, rfl⟩⟩⟩⟩

end

lemma exists_fill (e : Expr) {coll vars : List Symbol} (h : e.collectBindings coll = .ok vars)
    (hsub : vars ⊆ frame) : ∃ e', e.fillBindingIndices frame = .ok e' := by
  obtain ⟨own, hown, hfill⟩ := exists_collects e h
  exact hfill frame fun v hv => hsub ((hown.mem_iff h v).mpr (.inr hv))

/-! ## What resolution keeps -/

section

section

variable (hlook : ∀ v i p, position v frame = some i → look v (.resolved i) = readNamed env v p)

include hlook

-- Only the first of the three asks for the hypothesis; the others have it through the first.
set_option linter.unusedSectionVars false in
mutual

lemma evalWith_fill (e : Expr) {e' : Expr} (h : e.fillBindingIndices frame = .ok e') :
    e'.evalWith lib look = e.evalWith lib (readNamed env) := by
  match e with
  | .binding var p =>
    simp only [fillBindingIndices] at h
    split at h
    · cases h
      exact hlook var _ p ‹_›
    · cases h
  | .const _ =>
    cases h
    rfl
  | .apply op args | .lazy op args =>
    obtain ⟨args', hargs, h⟩ := bind_ok h
    cases h
    simp [evalWith, evalArgs_fill args hargs]
  | .cond clauses =>
    obtain ⟨clauses', hclauses, h⟩ := bind_ok h
    cases h
    simp [evalWith, evalClauses_fill clauses hclauses]
  | .unboundApply _ _ => cases h

lemma evalArgs_fill (args : List Expr) {args' : List Expr} (h : fillArgs frame args = .ok args') :
    evalArgs lib look args' = evalArgs lib (readNamed env) args ∧
      ∀ op, evalLazy lib look op args' = evalLazy lib (readNamed env) op args := by
  match args with
  | [] =>
    cases h
    simp [evalArgs, evalLazy]
  | arg :: args =>
    obtain ⟨arg', harg, h⟩ := bind_ok h
    obtain ⟨args', hargs, h⟩ := bind_ok h
    cases h
    simp [evalArgs, evalLazy, evalWith_fill arg harg, evalArgs_fill args hargs]

lemma evalClauses_fill (clauses : List (Expr × Expr)) {clauses' : List (Expr × Expr)}
    (h : fillClauses frame clauses = .ok clauses') :
    evalClauses lib look clauses' = evalClauses lib (readNamed env) clauses := by
  match clauses with
  | [] =>
    cases h
    simp [evalClauses]
  | (test, val) :: clauses =>
    obtain ⟨test', htest, h⟩ := bind_ok h
    obtain ⟨val', hval, h⟩ := bind_ok h
    obtain ⟨clauses', hclauses, h⟩ := bind_ok h
    cases h
    simp [evalClauses, evalWith_fill test htest, evalWith_fill val hval,
      evalClauses_fill clauses hclauses]

end

end

/-- Only the variables of an expression count: it is resolved against them, and what it then
evaluates to is its value under either reading. -/
theorem predIn_congr {e : Expr} {vars : List Symbol} {env env' : Symbol → Option DataValue}
    (h : e.bindings = .ok vars) (henv : ∀ v ∈ vars, env v = env' v) :
    e.predIn lib env = e.predIn lib env' := by
  obtain ⟨e', hfill⟩ := exists_fill e h (List.Subset.refl vars)
  have hnamed : e'.evalWith lib (readNamed env) = e.evalWith lib (readNamed env) :=
    evalWith_fill lib (fun _ _ _ _ => rfl) e hfill
  have hother : e'.evalWith lib (readNamed env) = e.evalWith lib (readNamed env') := by
    refine evalWith_fill lib (fun v i p hi => ?_) e hfill
    rw [readNamed, readNamed, henv v (exists_position.mp ⟨i, hi⟩)]
  rw [predIn, predIn, predWith, predWith, ← hnamed, hother]

end

end Expr

/-! ## Rows under names -/

/-- The value a row has under a name, the last column of a repeated name deciding. -/
def rowEnv : List Symbol → Tuple → Symbol → Option DataValue
  | b :: bs, v :: row, s => (rowEnv bs row s).or (if b = s then some v else none)
  | _, _, _ => none

@[simp] lemma rowEnv_nil (row : Tuple) (s : Symbol) : rowEnv [] row s = none := by
  cases row <;> rfl

lemma rowEnv_eq {row : Tuple} (h : row.length = frame.length) (s : Symbol) :
    rowEnv frame row s = (position s frame).bind (row[·]?) := by
  induction frame generalizing row with
  | nil => rw [rowEnv_nil, position, bind_none]
  | cons b bs ih =>
    cases row with
    | nil => cases h
    | cons v row =>
      have hlen : row.length = bs.length := Nat.succ.inj h
      rw [rowEnv, ih hlen, position]
      cases hpos : position s bs with
      | none => by_cases hb : b = s <;> simp [hb]
      | some i =>
        have hi : i < row.length := hlen ▸ position_lt hpos
        simp [hi]

lemma rowEnv_eq_none {row : Tuple} {s : Symbol} (h : s ∉ frame) : rowEnv frame row s = none := by
  induction frame generalizing row with
  | nil => exact rowEnv_nil row s
  | cons b bs ih =>
    obtain ⟨hb, hbs⟩ := not_or.mp (mt mem_cons.mpr h)
    cases row with
    | nil => rfl
    | cons v row => rw [rowEnv, ih hbs, if_neg (Ne.symm hb), none_or]

lemma rowEnv_append {left right : List Symbol} {a b : Tuple} (h : a.length = left.length)
    (s : Symbol) :
    rowEnv (left ++ right) (a ++ b) s = (rowEnv right b s).or (rowEnv left a s) := by
  induction left generalizing a with
  | nil =>
    obtain rfl := length_eq_zero_iff.mp h
    rw [nil_append, nil_append, rowEnv_nil, or_none]
  | cons n left ih =>
    cases a with
    | nil => cases h
    | cons v a =>
      rw [cons_append, cons_append, rowEnv, rowEnv, ih (Nat.succ.inj h), Option.or_assoc]

namespace Expr

variable {lib : Library} {row : Tuple}

section

variable (h : row.length = frame.length)

include h

lemma readAt_eq (v : Symbol) (i : ℕ) (p : BindingPos) (hi : position v frame = some i) :
    readAt row v (.resolved i) = readNamed (rowEnv frame row) v p := by
  rw [readAt, readNamed, rowEnv_eq h, hi, bind_some, List.getElem?_eq_getElem (h ▸ position_lt hi)]

lemma evalExpr_fill {e e' : Expr} (hfill : e.fillBindingIndices frame = .ok e') :
    e'.evalExpr lib row = e.evalIn lib (rowEnv frame row) :=
  evalWith_fill lib (readAt_eq h) e hfill

lemma evalPred_fill {e e' : Expr} (hfill : e.fillBindingIndices frame = .ok e') :
    e'.evalPred lib row = e.predIn lib (rowEnv frame row) := by
  rw [evalPred, predIn, predWith, predWith, evalWith_fill lib (readAt_eq h) e hfill]

lemma filtersWith_fill {fs fs' : List Expr} (hfill : fs.mapM (fillBindingIndices frame) = .ok fs') :
    filtersWith lib (readAt row) fs' = filtersWith lib (readNamed (rowEnv frame row)) fs := by
  induction fs generalizing fs' with
  | nil =>
    cases hfill
    rfl
  | cons f fs ih =>
    obtain ⟨f', fs', hf, hfs, rfl⟩ := mapM_cons_eq_ok hfill
    have hpred : f'.predWith lib (readAt row) = f.predWith lib (readNamed (rowEnv frame row)) :=
      evalPred_fill h hf
    simp [filtersWith, hpred, ih hfs]

end

/-! ## Conjunctions -/

section

variable {look : Symbol → BindingPos → Except ExprFault DataValue}

attribute [local simp] filtersWith predWith evalLazy

lemma predWith_and (args : List Expr) :
    (lazy .and args).predWith lib look = filtersWith lib look args := by
  have hlazy : ∀ args, (do
      let val ← evalLazy lib look .and args
      match val.getBool with
      | some b => .ok b
      | none => .error (.predicateType val)) = filtersWith lib look args := by
    intro args
    induction args with
    | nil =>
      rfl
    | cons arg args ih =>
      rw [filtersWith, predWith, evalLazy]
      cases harg : arg.evalWith lib look with
      | error e => rfl
      | ok val =>
        cases hb : val.getBool with
        | none => simp [LazyOp.decide, hb, bind, Except.bind]
        | some b =>
          cases b with
          | false => simp [LazyOp.decide, hb, bind, Except.bind]; rfl
          | true => simpa [LazyOp.decide, hb, bind, Except.bind] using ih
  exact hlazy args

lemma filtersWith_eq_true {fs : List Expr} :
    filtersWith lib look fs = .ok true ↔ ∀ f ∈ fs, f.predWith lib look = .ok true := by
  induction fs with
  | nil => simp [filtersWith]
  | cons f fs ih =>
    rw [forall_mem_cons, ← ih, filtersWith]
    cases hf : f.predWith lib look with
    | error e => simp [bind, Except.bind]
    | ok b => cases b <;> simp [bind, Except.bind]

lemma filtersWith_append (fs gs : List Expr) : filtersWith lib look (fs ++ gs) =
      (do if ← filtersWith lib look fs then filtersWith lib look gs else .ok false) := by
  induction fs with
  | nil => rfl
  | cons f fs ih =>
    rw [cons_append, filtersWith, filtersWith, ih]
    cases hf : f.predWith lib look with
    | error e => rfl
    | ok b => cases b <;> rfl

end

end Expr

end Kyzo

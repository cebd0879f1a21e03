import Kyzo.Exec.ExprEval

/-!
# Constant folding

`Expr::partial_eval` of `kyzo_model::program::expr`.  A connective folds its arguments up to the
first one that decides it, an application folds its arguments and loses a double negation, and a
conditional stays as it is.  With a double negation goes the type error of its operand;
`evalDropping` evaluates without it and tells whether there was one.
-/

namespace Kyzo

open Option List

/-- `OP_NEGATE`. -/
def OpDecl.negate : OpDecl := ⟨"OP_NEGATE", 1, false, true⟩

def opNegate : List DataValue → Except OpError DataValue
  | [] => .error (.arity "OP_NEGATE" 0)
  | v :: _ =>
    match v.getBool with
    | some b => .ok (.bool !b)
    | none => .error (.raised "'negate' requires booleans")

/-- A library with the negation. -/
def Library.withNegate (lib : Library) : Library := fun op args =>
  if op.name = OpDecl.negate.name then opNegate args else lib op args

namespace Expr

/-- The end of `partial_eval` on an application: the first argument of a negation is a negation, and
its first argument takes the place of both. -/
def dropDoubleNegation (op : OpDecl) : List Expr → Option Expr
  | .apply op' args' :: args =>
    if op.name = OpDecl.negate.name ∧ op'.name = OpDecl.negate.name then args'.head?
    else some (.apply op (.apply op' args' :: args))
  | args => some (.apply op args)

mutual

/-- `partial_eval`, which returns no error.  It has no result where it indexes into the arguments of
an inner negation that has none. -/
def partialEval : Expr → Option Expr
  | .lazy op args =>
    (foldLazy op args).map fun
      | .inl val => .const val
      | .inr args => .lazy op args
  | .apply op args => (foldArgs args).bind (dropDoubleNegation op)
  | .binding var pos => some (.binding var pos)
  | .const val => some (.const val)
  | .cond clauses => some (.cond clauses)
  | .unboundApply op args => some (.unboundApply op args)

/-- The loop over the arguments of an application. -/
def foldArgs : List Expr → Option (List Expr)
  | [] => some []
  | arg :: args => (partialEval arg).bind fun arg => (foldArgs args).map (arg :: ·)

/-- The loop over the arguments of a connective: the constant it folds to, or the arguments as the
loop leaves them. -/
def foldLazy (op : LazyOp) : List Expr → Option (DataValue ⊕ List Expr)
  | [] => some (.inl op.identity)
  | arg :: args => (partialEval arg).bind fun
    | .const val =>
      match op.decide val with
      | .decided d => some (.inl d)
      | .continue => (foldLazy op args).map (Sum.map id (.const val :: ·))
      | .refused => some (.inr (.const val :: args))
    | arg => some (.inr (arg :: args))

end

/-! ## The evaluation without dropped double negations -/

/-- An odd number of negations at the head, each the first argument of the one before: what folds to
a negation. -/
def oddNegations : Expr → Bool
  | .apply op [] => op.name == OpDecl.negate.name
  | .apply op (arg :: _) => op.name == OpDecl.negate.name && !oddNegations arg
  | _ => false

/-- The folder drops the two negations, before an argument with an even number of them. -/
def DropsNegations (op op' : OpDecl) (arg : Expr) : Prop :=
  op.name = OpDecl.negate.name ∧ op'.name = OpDecl.negate.name ∧ arg.oddNegations = false

instance (op op' : OpDecl) (arg : Expr) : Decidable (DropsNegations op op' arg) :=
  inferInstanceAs (Decidable (_ ∧ _ ∧ _))

mutual

/-- The value an expression has on every row, as far as folding finds it. -/
def constant : Expr → Option DataValue
  | .const val => some val
  | .lazy op args => constantLazy op args
  | .apply op (.apply op' (arg :: _) :: _) =>
    if DropsNegations op op' arg then constant arg else none
  | _ => none

/-- The value a connective has on every row. -/
def constantLazy (op : LazyOp) : List Expr → Option DataValue
  | [] => some op.identity
  | arg :: args => (constant arg).bind fun val =>
    match op.decide val with
    | .decided d => some d
    | .continue => constantLazy op args
    | .refused => none

end

/-- A result with the mark that no check was missed. -/
def completes {ε α : Type} : Except ε α → Option (α × Bool)
  | .ok a => some (a, true)
  | .error _ => none

/-- One evaluation after another: the marks of both. -/
def andThen {α β : Type} (r : Option (α × Bool)) (q : α → Option (β × Bool)) : Option (β × Bool) :=
  r.bind fun (a, whole) => (q a).map fun (b, whole') => (b, whole && whole')

section

variable (lib : Library) (look : Symbol → BindingPos → Except ExprFault DataValue)

mutual

/-- The evaluation of an expression that reads a dropped double negation as its operand.  The mark
with its value tells whether each such operand was a truth value, and the negations had no further
argument that fails. -/
def evalDropping : Expr → Option (DataValue × Bool)
  | .apply op args =>
    let plain := andThen (argsDropping args) fun vals =>
      completes ((lib.withNegate.apply op vals).mapError ExprFault.raised)
    match args with
    | .apply op' (arg :: surplus') :: surplus =>
      if DropsNegations op op' arg then
        (evalDropping arg).map fun (val, whole) =>
          (val, whole && (val.getBool.isSome &&
            (completes (evalArgs lib.withNegate look surplus')).isSome &&
            (completes (evalArgs lib.withNegate look surplus)).isSome))
      else plain
    | _ => plain
  | .lazy op args => lazyDropping op args
  | e => completes (e.evalWith lib.withNegate look)

/-- The arguments of an operator. -/
def argsDropping : List Expr → Option (List DataValue × Bool)
  | [] => some ([], true)
  | arg :: args => andThen (evalDropping arg) fun val =>
    andThen (argsDropping args) fun vals => some (val :: vals, true)

/-- The arguments of a connective.  Behind one that is not constant nothing is folded. -/
def lazyDropping (op : LazyOp) : List Expr → Option (DataValue × Bool)
  | [] => some (op.identity, true)
  | arg :: args => andThen (evalDropping arg) fun val =>
    match op.decide val with
    | .decided d => some (d, true)
    | .continue =>
      if (constant arg).isSome then lazyDropping op args
      else completes (evalLazy lib.withNegate look op args)
    | .refused => none

end

end

/-- The outcomes before and after folding, told by the evaluation that drops double negations. -/
inductive Tracks {ε α : Type} : Except ε α → Except ε α → Option (α × Bool) → Prop
  | fails (f f' : ε) : Tracks (.error f) (.error f') none
  | agrees (a : α) : Tracks (.ok a) (.ok a) (some (a, true))
  | loses (f : ε) (a : α) : Tracks (.error f) (.ok a) (some (a, false))

namespace Tracks

variable {ε α β : Type} {a a' : Except ε α} {r : Option (α × Bool)}

lemma same (a : Except ε α) : Tracks a a (completes a) := by
  cases a with
  | error f => exact .fails f f
  | ok a => exact .agrees a

lemma bind {k k' : α → Except ε β} {q : α → Option (β × Bool)} (h : Tracks a a' r)
    (hk : ∀ v, a' = .ok v → Tracks (k v) (k' v) (q v)) :
    Tracks (a >>= k) (a' >>= k') (andThen r q) := by
  cases h with
  | fails f f' => exact .fails f f'
  | agrees v =>
    have hv := hk v rfl
    simpa [andThen, ok_bind] using hv
  | loses f v =>
    have hv := hk v rfl
    change Tracks (.error f) (k' v) ((q v).map fun (b, whole) => (b, false && whole))
    generalize k v = x, k' v = x', q v = y at hv ⊢
    cases hv with
    | fails g g' => exact .fails f g'
    | agrees b => exact .loses f b
    | loses g b => exact .loses f b

lemma drop {b : Except ε α} {g : α → Bool} (h : Tracks a a' r)
    (hb : ∀ v, b = .ok v ↔ a = .ok v ∧ g v = true) :
    Tracks b a' (r.map fun (v, whole) => (v, whole && g v)) := by
  cases h with
  | fails f f' =>
    cases b with
    | error f'' => exact .fails f'' f'
    | ok v => cases ((hb v).mp rfl).1
  | agrees v =>
    cases b with
    | error f =>
      have hv : g v = false := by
        rw [← Bool.not_eq_true]
        exact fun hv => by cases (hb v).mpr ⟨rfl, hv⟩
      simpa [hv] using Tracks.loses f v
    | ok w =>
      obtain ⟨hw, hv⟩ := (hb w).mp rfl
      cases hw
      simpa [hv] using Tracks.agrees v
  | loses f v =>
    cases b with
    | error f' => exact .loses f' v
    | ok w => cases ((hb w).mp rfl).1

lemma ok (h : Tracks a a' r) {v : α} (hv : a = .ok v) : a' = .ok v := by
  cases h with
  | fails f f' => cases hv
  | agrees w => exact hv
  | loses f w => cases hv

lemma eq_ok_iff (h : Tracks a a' r) : (∀ v, a = .ok v ↔ a' = .ok v) ↔ ∀ v, r ≠ some (v, false) := by
  cases h with
  | fails f f' => simp
  | agrees v => simp
  | loses f v => simp

end Tracks

/-! ## Chains of negations -/

section

variable {e e' arg : Expr} {op op' : OpDecl} {args args' : List Expr}

def IsNegation : Expr → Prop
  | .apply op _ => op.name = OpDecl.negate.name
  | _ => False

lemma dropDoubleNegation_cons (h : dropDoubleNegation op (arg :: args) = some e') :
    (op.name = OpDecl.negate.name ∧
      ∃ op' args', arg = .apply op' (e' :: args') ∧ op'.name = OpDecl.negate.name) ∨
    (¬ (op.name = OpDecl.negate.name ∧ IsNegation arg) ∧ e' = .apply op (arg :: args)) := by
  unfold dropDoubleNegation at h
  split at h
  case h_1 op' args' args heq =>
    cases heq
    split_ifs at h with hop
    · obtain ⟨rest, rfl⟩ := head?_eq_some_iff.mp h
      exact .inl ⟨hop.1, op', rest, rfl, hop.2⟩
    · cases h
      exact .inr ⟨hop, rfl⟩
  case h_2 hargs =>
    cases h
    refine .inr ⟨fun ⟨_, hneg⟩ => ?_, rfl⟩
    cases arg with
    | apply op' args' => exact hargs op' args' args rfl
    | _ => exact hneg

/-- What folds to a negation has an odd number of them at its head, and then its argument is
none. -/
theorem isNegation_iff (e : Expr) {e' : Expr} (h : e.partialEval = some e') :
    (IsNegation e' ↔ e.oddNegations = true) ∧
      ∀ op arg args, e' = .apply op (arg :: args) → op.name = OpDecl.negate.name →
        ¬ IsNegation arg := by
  match e with
  | .apply op [] =>
    cases h
    simp [IsNegation, oddNegations]
  | .apply op (arg :: args) =>
    obtain ⟨all, hall, h⟩ := bind_eq_some_iff.mp h
    obtain ⟨arg', harg, hall⟩ := bind_eq_some_iff.mp hall
    obtain ⟨args', hargs, rfl⟩ := map_eq_some_iff.mp hall
    obtain ⟨hodd, hhead⟩ := isNegation_iff arg harg
    rcases dropDoubleNegation_cons h with ⟨hop, op', rest, rfl, hop'⟩ | ⟨hkept, rfl⟩
    · have hinner := hhead op' e' rest rfl hop'
      refine ⟨?_, fun op'' arg' args'' heq hop'' => absurd ?_ hinner⟩
      · simp [oddNegations, hodd.mp hop', hinner]
      · rw [heq]
        exact hop''
    · refine ⟨?_, fun op'' arg'' args'' heq hop'' hneg => ?_⟩
      · simp only [IsNegation, oddNegations, Bool.and_eq_true, beq_iff_eq, Bool.not_eq_true']
        refine ⟨fun hop => ⟨hop, ?_⟩, And.left⟩
        rw [← Bool.not_eq_true, ← hodd]
        exact fun hneg => hkept ⟨hop, hneg⟩
      · cases heq
        exact hkept ⟨hop'', hneg⟩
  | .lazy op args =>
    obtain ⟨r, -, rfl⟩ := map_eq_some_iff.mp h
    cases r with
    | inl d => simp [IsNegation, oddNegations]
    | inr args' => simp [IsNegation, oddNegations]
  | .binding .. => cases h; simp [IsNegation, oddNegations]
  | .const _ => cases h; simp [IsNegation, oddNegations]
  | .cond _ => cases h; simp [IsNegation, oddNegations]
  | .unboundApply .. => cases h; simp [IsNegation, oddNegations]

lemma partialEval_of_drops {surplus' surplus : List Expr} (hdrops : DropsNegations op op' arg)
    (h : (Expr.apply op (.apply op' (arg :: surplus') :: surplus)).partialEval = some e') :
    arg.partialEval = some e' := by
  obtain ⟨hop, hop', heven⟩ := hdrops
  obtain ⟨all, hall, h⟩ := bind_eq_some_iff.mp h
  obtain ⟨inner, hinner, hall⟩ := bind_eq_some_iff.mp hall
  obtain ⟨rest, -, rfl⟩ := map_eq_some_iff.mp hall
  obtain ⟨all, hall, hinner⟩ := bind_eq_some_iff.mp hinner
  obtain ⟨arg', harg, hall⟩ := bind_eq_some_iff.mp hall
  obtain ⟨rest', -, rfl⟩ := map_eq_some_iff.mp hall
  have hneg : ¬ IsNegation arg' := by
    rw [(isNegation_iff arg harg).1, heven]
    exact Bool.false_ne_true
  rcases dropDoubleNegation_cons hinner with ⟨-, op'', _, rfl, hop''⟩ | ⟨-, rfl⟩
  · exact absurd hop'' hneg
  · rcases dropDoubleNegation_cons h with ⟨-, _, _, heq, -⟩ | ⟨hkept, -⟩
    · cases heq
      exact harg
    · exact absurd ⟨hop, hop'⟩ hkept

/-- The arguments do not begin with a negation that is dropped. -/
def Plain (op : OpDecl) (args : List Expr) : Prop :=
  ∀ op' arg surplus' surplus, args = .apply op' (arg :: surplus') :: surplus →
    ¬ DropsNegations op op' arg

/-- **Folding an application** drops two negations, or folds its arguments. -/
theorem partialEval_apply (h : (Expr.apply op args).partialEval = some e') :
    (∃ op' arg surplus' surplus, args = .apply op' (arg :: surplus') :: surplus ∧
      DropsNegations op op' arg ∧ arg.partialEval = some e') ∨
    (Plain op args ∧ ∃ args', foldArgs args = some args' ∧ e' = .apply op args') := by
  by_cases hplain : Plain op args
  · refine .inr ⟨hplain, ?_⟩
    obtain ⟨all, hall, h⟩ := bind_eq_some_iff.mp h
    refine ⟨all, hall, ?_⟩
    match args with
    | [] =>
      cases hall
      exact (some.inj h).symm
    | arg :: args =>
      obtain ⟨arg', harg, hall⟩ := bind_eq_some_iff.mp hall
      obtain ⟨args', hargs, rfl⟩ := map_eq_some_iff.mp hall
      rcases dropDoubleNegation_cons h with ⟨hop, op', rest, rfl, hop'⟩ | ⟨-, rfl⟩
      · have hodd := (isNegation_iff arg harg).1.mp hop'
        match arg with
        | .apply op'' [] => cases harg
        | .apply op'' (inner :: surplus') =>
          rw [oddNegations, Bool.and_eq_true, beq_iff_eq, Bool.not_eq_true'] at hodd
          exact absurd ⟨hop, hodd⟩ (hplain op'' inner surplus' args rfl)
      · rfl
  · unfold Plain at hplain
    push Not at hplain
    obtain ⟨op', arg, surplus', surplus, rfl, hdrops⟩ := hplain
    exact .inl ⟨op', arg, surplus', surplus, rfl, hdrops, partialEval_of_drops hdrops h⟩

lemma Plain.apply (h : Plain op args) :
    constant (.apply op args) = none ∧ ∀ lib look, evalDropping lib look (.apply op args) =
      andThen (argsDropping lib look args) fun vals =>
        completes ((lib.withNegate.apply op vals).mapError ExprFault.raised) := by
  match args with
  | .apply op' (arg :: surplus') :: surplus =>
    have hplain := h op' arg surplus' surplus rfl
    exact ⟨if_neg hplain, fun _ _ => if_neg hplain⟩
  | .apply op' [] :: _ | .lazy .. :: _ | .binding .. :: _ | .const _ :: _ | .cond _ :: _
  | .unboundApply .. :: _ | [] => exact ⟨rfl, fun _ _ => rfl⟩

mutual

lemma constant_iff (e : Expr) {e' : Expr} (h : e.partialEval = some e') {val : DataValue} :
    e.constant = some val ↔ e' = .const val := by
  match e with
  | .apply op args =>
    rcases partialEval_apply h with
      ⟨op', arg, surplus', surplus, rfl, hdrops, harg⟩ | ⟨hplain, _, -, rfl⟩
    · rw [constant, if_pos hdrops]
      exact constant_iff arg harg
    · simp [hplain.apply.1]
  | .lazy op args =>
    obtain ⟨r, hr, rfl⟩ := map_eq_some_iff.mp h
    rw [constant, constantLazy_iff args hr]
    cases r <;> simp
  | .binding .. => cases h; simp [constant]
  | .const _ => cases h; simp [constant]
  | .cond _ => cases h; simp [constant]
  | .unboundApply .. => cases h; simp [constant]

lemma constantLazy_iff {op : LazyOp} (args : List Expr) {r : DataValue ⊕ List Expr}
    (h : foldLazy op args = some r) {val : DataValue} :
    constantLazy op args = some val ↔ r = .inl val := by
  match args with
  | [] =>
    cases h
    simp [constantLazy]
  | arg :: args =>
    obtain ⟨arg', harg, h⟩ := bind_eq_some_iff.mp h
    split at h
    · rename_i val'
      rw [constantLazy, (constant_iff arg harg).mpr rfl, bind_some]
      split at h
      · cases h
        simp
      · obtain ⟨r, hr, rfl⟩ := map_eq_some_iff.mp h
        rw [constantLazy_iff args hr]
        cases r <;> simp
      · cases h
        simp
    · rename_i hconst
      cases h
      have hnone : arg.constant = none := by
        rw [Option.eq_none_iff_forall_ne_some]
        exact fun val hval => hconst val ((constant_iff arg harg).mp hval)
      simp [constantLazy, hnone]

end

end

/-! ## Folding -/

section

variable {lib : Library} {look : Symbol → BindingPos → Except ExprFault DataValue}
  {op op' : OpDecl} {args : List Expr}

lemma evalWith_negation (hop : op.name = OpDecl.negate.name) {arg : Expr} {v : DataValue} :
    (Expr.apply op (arg :: args)).evalWith lib.withNegate look = .ok v ↔
      ∃ b, v = .bool b ∧ arg.evalWith lib.withNegate look = .ok (.bool !b) ∧
        ∃ vals, evalArgs lib.withNegate look args = .ok vals := by
  have happly (vals : List DataValue) : lib.withNegate.apply op vals = opNegate vals := by
    simp [Library.apply, Library.withNegate, hop, OpDecl.negate]
  constructor
  · intro h
    obtain ⟨all, hall, h⟩ := bind_ok h
    obtain ⟨val, hval, hall⟩ := bind_ok hall
    obtain ⟨vals, hvals, hall⟩ := bind_ok hall
    cases hall
    rw [happly, opNegate] at h
    split at h
    · rename_i b hb
      obtain rfl := DataValue.eq_bool_of_getBool hb
      exact ⟨!b, (Except.ok.inj h).symm, by rwa [Bool.not_not], vals, hvals⟩
    · cases h
  · rintro ⟨b, rfl, harg, vals, hvals⟩
    refine bind_eq_ok.mpr ⟨.bool (!b) :: vals, ?_, ?_⟩
    · exact bind_eq_ok.mpr ⟨_, harg, bind_eq_ok.mpr ⟨vals, hvals, rfl⟩⟩
    · rw [happly]
      cases b <;> rfl

lemma isSome_completes {ε α : Type} {a : Except ε α} :
    (completes a).isSome = true ↔ ∃ v, a = .ok v := by
  cases a <;> simp [completes]

/-- A double negation has the value of its operand, if that is a truth value. -/
theorem evalWith_drops {arg : Expr} {surplus' surplus : List Expr}
    (hdrops : DropsNegations op op' arg) (v : DataValue) :
    (Expr.apply op (.apply op' (arg :: surplus') :: surplus)).evalWith lib.withNegate look = .ok v ↔
      arg.evalWith lib.withNegate look = .ok v ∧
        (v.getBool.isSome && (completes (evalArgs lib.withNegate look surplus')).isSome &&
          (completes (evalArgs lib.withNegate look surplus)).isSome) = true := by
  simp only [evalWith_negation hdrops.1, evalWith_negation hdrops.2.1, Bool.and_eq_true,
    isSome_completes]
  constructor
  · rintro ⟨b, rfl, ⟨c, hc, hval, hsurplus'⟩, hsurplus⟩
    obtain rfl : (!b) = c := RawValue.bool.inj (congrArg Subtype.val hc)
    rw [Bool.not_not] at hval
    exact ⟨hval, ⟨rfl, hsurplus'⟩, hsurplus⟩
  · rintro ⟨hval, ⟨hbool, hsurplus'⟩, hsurplus⟩
    obtain ⟨b, hb⟩ := isSome_iff_exists.mp hbool
    obtain rfl := DataValue.eq_bool_of_getBool hb
    exact ⟨b, rfl, ⟨!b, rfl, by rwa [Bool.not_not], hsurplus'⟩, hsurplus⟩

mutual

/-- **Folding an expression**: its evaluations before and after. -/
theorem partialEval_tracks (e : Expr) {e' : Expr} (h : e.partialEval = some e') :
    Tracks (e.evalWith lib.withNegate look) (e'.evalWith lib.withNegate look)
      (evalDropping lib look e) := by
  match e with
  | .lazy op args =>
    obtain ⟨r, hr, rfl⟩ := map_eq_some_iff.mp h
    have hfold := foldLazy_tracks args hr
    cases r <;> exact hfold
  | .apply op args =>
    rcases partialEval_apply h with
      ⟨op', arg, surplus', surplus, rfl, hdrops, harg⟩ | ⟨hplain, args', hargs, rfl⟩
    · rw [evalDropping, if_pos hdrops]
      exact (partialEval_tracks arg harg).drop (evalWith_drops hdrops)
    · rw [hplain.apply.2]
      exact (foldArgs_tracks args hargs).bind fun vals _ => .same _
  | .binding .. => exact some.inj h ▸ .same _
  | .const _ => exact some.inj h ▸ .same _
  | .cond _ => exact some.inj h ▸ .same _
  | .unboundApply .. => exact some.inj h ▸ .same _

lemma foldArgs_tracks (args : List Expr) {args' : List Expr} (h : foldArgs args = some args') :
    Tracks (evalArgs lib.withNegate look args) (evalArgs lib.withNegate look args')
      (argsDropping lib look args) := by
  match args with
  | [] =>
    cases h
    exact .agrees []
  | arg :: args =>
    obtain ⟨arg', harg, h⟩ := bind_eq_some_iff.mp h
    obtain ⟨args', hargs, rfl⟩ := map_eq_some_iff.mp h
    exact (partialEval_tracks arg harg).bind fun val _ =>
      (foldArgs_tracks args hargs).bind fun vals _ => .agrees (val :: vals)

/-- Folding the arguments of a connective. -/
theorem foldLazy_tracks {op : LazyOp} (args : List Expr) {r : DataValue ⊕ List Expr}
    (h : foldLazy op args = some r) :
    Tracks (evalLazy lib.withNegate look op args)
      (r.elim .ok (evalLazy lib.withNegate look op)) (lazyDropping lib look op args) := by
  match args with
  | [] =>
    cases h
    exact .agrees op.identity
  | arg :: args =>
    obtain ⟨arg', harg, h⟩ := bind_eq_some_iff.mp h
    have htracks :
        Tracks (arg.evalWith lib.withNegate look) (arg'.evalWith lib.withNegate look) _ :=
      partialEval_tracks arg harg
    have hconstant (val : DataValue) : arg.constant = some val ↔ arg' = .const val :=
      constant_iff arg harg
    split at h
    · rename_i val
      split at h
      · rename_i d hdecide
        cases h
        change Tracks _ (Except.ok val >>= fun _ => .ok d) _
        refine htracks.bind fun v hv => ?_
        cases hv
        simpa [hdecide] using Tracks.agrees d
      · rename_i hdecide
        obtain ⟨r, hr, rfl⟩ := map_eq_some_iff.mp h
        have hrest := foldLazy_tracks args hr
        have helim : (Sum.map id (Expr.const val :: ·) r).elim .ok
            (evalLazy lib.withNegate look op) = r.elim .ok (evalLazy lib.withNegate look op) := by
          cases r with
          | inl d => rfl
          | inr args' => simp [evalLazy, evalWith, ok_bind, hdecide]
        rw [helim]
        change Tracks _ (Except.ok val >>= fun _ => r.elim _ _) _
        refine htracks.bind fun v hv => ?_
        cases hv
        simpa [hdecide, (hconstant val).mpr rfl] using hrest
      · rename_i hdecide
        cases h
        refine htracks.bind fun v hv => ?_
        cases hv
        simpa [hdecide] using Tracks.fails _ _
    · rename_i hopen
      cases h
      have hnone : arg.constant = none := by
        rw [Option.eq_none_iff_forall_ne_some]
        exact fun val hval => hopen val ((hconstant val).mp hval)
      refine htracks.bind fun v _ => ?_
      cases op.decide v with
      | decided d => exact .agrees d
      | «continue» => simpa [hnone] using Tracks.same _
      | refused => exact .fails _ _

end

end

/-- A double negation. -/
def notNot (e : Expr) : Expr := .apply .negate [.apply .negate [e]]

end Expr

end Kyzo

import Kyzo.Exec.ExprEval
import Kyzo.Store.ScanKeys

/-!
# Scan ranges of filters

`Expr::extract_bound` and `compute_bounds` of `kyzo_model::program::expr`: the range of a column
that a comparison with a constant, or a test for a string prefix, leaves to a scan.  A number is
widened on the side of the scan: to the integer at its place below, to the float at its place above.
Below that loses nothing.  Above, an integer that no float equals may be rounded down, and a string
may run past the largest character; `Expr.Loses` names the values a scan misses for that.
-/

namespace Kyzo

open DataValue NumericOrd Ordering Except

/-! ## Numbers read as integers -/

/-- The test `f.round() == f`. -/
def F64.roundIsSelf (f : F64) : Bool := !f.isNaN && (f.isInfinite || f.fractIsZero)

def Num.toIntCoerced (n : Num) : Option Int64 :=
  match n.repr with
  | .int v => some v
  | .float f =>
    if f.roundIsSelf && (F64.ofInt (-2 ^ 63)).le f && f.lt (F64.ofInt (2 ^ 63)) then some f.toInt64
    else none

def DataValue.getInt : DataValue → Option Int64
  | ⟨.num n, _⟩ => n.toIntCoerced
  | _ => none

/-! ## Bounds of a column -/

namespace ScanBound

/-- `impl Ord for ScanBound`. -/
def cmp : ScanBound → ScanBound → Ordering
  | .least, .least => .eq
  | .least, _ => .lt
  | _, .least => .gt
  | .greatest, .greatest => .eq
  | .greatest, _ => .gt
  | _, .greatest => .lt
  | .value a, .value b => compare a b

/-- The test for `ScanBound::Least`. -/
def isLeast : ScanBound → Bool
  | .least => true
  | _ => false

/-- The test for `ScanBound::Greatest`. -/
def isGreatest : ScanBound → Bool
  | .greatest => true
  | _ => false

/-- The larger of two bounds. -/
def max (a b : ScanBound) : ScanBound := if a.cmp b = .gt then a else b

/-- The smaller of two bounds. -/
def min (a b : ScanBound) : ScanBound := if a.cmp b = .gt then b else a

end ScanBound

structure ValueRange where
  lower : ScanBound
  upper : ScanBound

namespace ValueRange

/-- `ValueRange::default`. -/
def all : ValueRange := ⟨.least, .greatest⟩

def null : ValueRange := ⟨.greatest, .least⟩

variable (val : DataValue)

def lowerBound : ValueRange := ⟨.value val, .greatest⟩

def upperBound : ValueRange := ⟨.least, .value val⟩

def merge (r s : ValueRange) : ValueRange :=
  let lower := r.lower.max s.lower
  let upper := r.upper.min s.upper
  if lower.cmp upper = .gt then null else ⟨lower, upper⟩

/-- The lower bound a constant gives. -/
def fromBelow : ValueRange :=
  lowerBound (match val.getInt with
    | some i => .num (.int i)
    | none => val)

/-- The upper bound a constant gives. -/
def fromAbove : ValueRange :=
  upperBound (match val.getFloat with
    | some f => .num (.float f)
    | none => val)

end ValueRange

def largestUtfChar : Char := Char.ofNat 0x10FFFF

/-- What the extraction of a range refuses with. -/
inductive RangeError where
  | strRangeScan (val : DataValue)
  | noImplementation (op : String)

namespace Expr

variable (target : Symbol)

/-- `Expr::get_binding`, as the test that the variable is the target. -/
def isVar : Expr → Bool
  | .binding var _ => target = var
  | _ => false

def getConst : Expr → Option DataValue
  | .const val => some val
  | _ => none

/-- The constant that stands against the target variable. -/
def constAgainst (a b : Expr) : Option DataValue :=
  if a.isVar target then b.getConst else none

/-- The range of a comparison, from what the constant gives on its right and on its left. -/
def comparisonRange (right left : DataValue → ValueRange) (target : Symbol) (a b : Expr) :
    ValueRange :=
  match constAgainst target a b with
  | some val => right val
  | none =>
    match constAgainst target b a with
    | some val => left val
    | none => .all

/-- The range of a test for a string prefix. -/
def prefixRange (a b : Expr) : Except RangeError ValueRange :=
  match constAgainst target a b with
  | some val =>
    match val.getStr with
    | some s => .ok ⟨.value (.str s), .value (.str (s.push largestUtfChar))⟩
    | none => .error (.strRangeScan val)
  | none => .ok .all

def extractBound : Expr → Except RangeError ValueRange
  | .apply op (a :: b :: _) =>
    if op.name = "OP_GE" ∨ op.name = "OP_GT" then
      .ok (comparisonRange .fromBelow .fromAbove target a b)
    else if op.name = "OP_LE" ∨ op.name = "OP_LT" then
      .ok (comparisonRange .fromAbove .fromBelow target a b)
    else if op.name = "OP_STARTS_WITH" then prefixRange target a b
    else .ok .all
  | .unboundApply op _ => .error (.noImplementation op)
  | _ => .ok .all

/-- The range the filters leave of one column. -/
def columnRange (filters : List Expr) (target : Symbol) : Except RangeError ValueRange :=
  filters.foldlM (fun r f => do return r.merge (← f.extractBound target)) .all

def computeBounds (filters : List Expr) (symbols : List Symbol) :
    Except RangeError (List ScanBound × List ScanBound) := do
  let ranges ← symbols.mapM (columnRange filters)
  return (ranges.map (·.lower), ranges.map (·.upper))

end Expr

/-! ## The order of bounds -/

namespace ScanBound

/-- One bound is no larger than another. -/
def Le : ScanBound → ScanBound → Prop
  | .least, _ => True
  | _, .greatest => True
  | .value a, .value b => (compare a b).isLE = true
  | _, _ => False

attribute [local simp] cmp Le

lemma cmp_eq_gt {a b : ScanBound} : a.cmp b = .gt ↔ ¬ a.Le b := by
  cases a <;> cases b <;> simp [cmp, Le, isLE_eq_false]

lemma le_refl (a : ScanBound) : a.Le a := by
  cases a <;> simp [Le]

variable {a b c : ScanBound}

lemma le_trans (hab : a.Le b) (hbc : b.Le c) : a.Le c := by
  cases a <;> cases b <;> cases c <;> simp_all only [Le]
  exact Std.TransOrd.isLE_trans hab hbc

lemma le_of_not_le {a b : ScanBound} (h : ¬ a.Le b) : b.Le a := by
  cases a <;> cases b <;> simp_all only [Le, not_true_eq_false]
  have hgt := isLE_eq_false.mp (Bool.eq_false_iff.mpr h)
  exact isLE_of_eq_lt (Std.OrientedCmp.lt_of_gt hgt)

lemma max_le (ha : a.Le c) (hb : b.Le c) : (a.max b).Le c := by
  unfold max
  split
  · exact ha
  · exact hb

lemma le_max_left (a b : ScanBound) : a.Le (a.max b) := by
  unfold max
  split
  · exact le_refl a
  · exact not_not.mp (mt cmp_eq_gt.mpr ‹_›)

lemma le_max_right (a b : ScanBound) : b.Le (a.max b) := by
  unfold max
  split
  · exact le_of_not_le (cmp_eq_gt.mp ‹_›)
  · exact le_refl b

lemma le_min (ha : c.Le a) (hb : c.Le b) : c.Le (a.min b) := by
  unfold min
  split
  · exact hb
  · exact ha

lemma min_le_left (a b : ScanBound) : (a.min b).Le a := by
  unfold min
  split
  · exact le_of_not_le (cmp_eq_gt.mp ‹_›)
  · exact le_refl a

lemma min_le_right (a b : ScanBound) : (a.min b).Le b := by
  unfold min
  split
  · exact le_refl b
  · exact not_not.mp (mt cmp_eq_gt.mpr ‹_›)

end ScanBound

variable {v : DataValue}

namespace ValueRange

open ScanBound

/-- A value lies in a range. -/
def Contains (r : ValueRange) (v : DataValue) : Prop :=
  r.lower.Le (.value v) ∧ ScanBound.Le (.value v) r.upper

lemma contains_all (v : DataValue) : all.Contains v := by
  simp [Contains, all, ScanBound.Le]

variable {r s : ValueRange}

lemma Contains.merge (hr : r.Contains v) (hs : s.Contains v) : (r.merge s).Contains v := by
  have hlower := max_le hr.1 hs.1
  have hupper := le_min hr.2 hs.2
  rw [ValueRange.merge, if_neg fun h => cmp_eq_gt.mp h (le_trans hlower hupper)]
  exact ⟨hlower, hupper⟩

lemma Contains.of_merge (h : (r.merge s).Contains v) : r.Contains v ∧ s.Contains v := by
  unfold ValueRange.merge at h
  dsimp only at h
  split at h
  · exact h.1.elim
  · exact ⟨⟨le_trans (le_max_left _ _) h.1, le_trans h.2 (min_le_left _ _)⟩,
      ⟨le_trans (le_max_right _ _) h.1, le_trans h.2 (min_le_right _ _)⟩⟩

end ValueRange

/-! ## What a range keeps -/

lemma isFinite_of_range {f : F64}
    (hlow : (F64.ofInt (-2 ^ 63)).le f = true) (hhigh : f.lt (F64.ofInt (2 ^ 63)) = true) :
    f.isFinite = true := by
  have hlowRank : (F64.ofInt (-2 ^ 63)).rank = -(1086 * 2 ^ 52) := by decide +kernel
  have hhighRank : (F64.ofInt (2 ^ 63)).rank = 1086 * 2 ^ 52 := by decide +kernel
  simp only [F64.le, F64.lt, Bool.and_eq_true, decide_eq_true_eq, hlowRank, hhighRank] at hlow hhigh
  have hrank : f.bits.toNat % 2 ^ 63 ≤ 1086 * 2 ^ 52 := by
    have hl := hlow.2
    have hh := hhigh.2
    unfold F64.rank at hl hh
    cases hsign : f.signBit with
    | true =>
      omega
    | false =>
      omega
  rw [F64.toNat_mod] at hrank
  simp only [F64.isFinite, decide_eq_true_eq]
  omega

lemma Num.line_toIntCoerced {n : Num} {i : Int64} (h : n.toIntCoerced = some i) :
    (Num.int i).line = n.line := by
  cases hrepr : n.repr with
  | int v =>
    rw [toIntCoerced, hrepr] at h
    obtain rfl := Option.some.inj h
    rw [show n = Num.int v from Num.ext hrepr]
  | float f =>
    simp only [toIntCoerced, hrepr] at h
    split at h
    · rename_i hcond
      cases h
      simp only [F64.roundIsSelf, Bool.and_eq_true, Bool.not_eq_true'] at hcond
      obtain ⟨⟨⟨hnan, hwhole⟩, hlow⟩, hhigh⟩ := hcond
      have hfin := isFinite_of_range hlow hhigh
      have hinf : f.isInfinite = false := by
        simp only [F64.isFinite, decide_eq_true_eq] at hfin
        simp [F64.isInfinite, hfin]
      rw [hinf, Bool.false_or] at hwhole
      refine (line_int_eq_float rfl hrepr).mpr ?_
      rw [intFloatEq, hfin, hwhole, hlow, hhigh]
      exact beq_self_eq_true _
    · cases h

lemma Num.exists_toIntCoerced {m n : Num} (hm : m.isFloat = false) (h : m.line = n.line) :
    ∃ i, n.toIntCoerced = some i := by
  cases hrepr : n.repr with
  | int v => exact ⟨v, by rw [toIntCoerced, hrepr]⟩
  | float f =>
    cases hmrepr : m.repr with
    | float g => simp [isFloat, hmrepr] at hm
    | int i =>
      have heq := (line_int_eq_float hmrepr hrepr).mp h
      unfold intFloatEq at heq
      split at heq
      · cases heq
      · rename_i hwhole
        split at heq
        · cases heq
        · rename_i hrange
          simp only [Bool.or_eq_true, Bool.not_eq_true', not_or, Bool.not_eq_false] at hwhole hrange
          have hnan : f.isNaN = false := by
            have hfin := hwhole.1
            simp only [F64.isFinite, decide_eq_true_eq] at hfin
            simp [F64.isNaN, hfin]
          refine ⟨f.toInt64, ?_⟩
          simp only [toIntCoerced, hrepr, F64.roundIsSelf, hnan, hwhole.2, Bool.or_true,
            Bool.not_false, Bool.true_and]
          rw [hrange, if_pos rfl]

lemma DataValue.isLE_num {a b : Num} : (compare (num a) (.num b)).isLE = true ↔
      a.line < b.line ∨ a.line = b.line ∧ (a.isFloat = true → b.isFloat = true) := by
  rw [compare_num, Num.cmp_eq_line]
  rcases lt_trichotomy a.line b.line with h | h | h
  · simp [compare_lt_iff_lt.mpr h, h]
  · cases a.isFloat <;> cases b.isFloat <;> simp [h] <;> rfl
  · simp [compare_gt_iff_gt.mpr h, h.not_gt, h.ne']

namespace ValueRange

variable {w val : DataValue}

lemma num_or_not (h : ensureSameValueType w val = .ok ()) :
    (∃ m n, w = .num m ∧ val = .num n) ∨ val.getInt = none ∧ val.getFloat = none ∧
      exprCmp w val = compare w val := by
  obtain ⟨v, hv⟩ := w
  obtain ⟨u, hu⟩ := val
  unfold ensureSameValueType at h
  split at h
  · rename_i htag
    have htag : v.tag = u.tag := htag.1
    cases v <;> cases u <;> cases htag
    case isTrue.num.num.refl => exact .inl ⟨_, _, rfl, rfl⟩
    all_goals exact .inr ⟨rfl, rfl, rfl⟩
  · cases h

lemma fromBelow_contains (htag : ensureSameValueType w val = .ok ()) (h : exprCmp w val ≠ .lt) :
    (fromBelow val).Contains w := by
  refine ⟨?_, by simp [fromBelow, lowerBound, ScanBound.Le]⟩
  simp only [fromBelow, lowerBound, ScanBound.Le]
  rcases num_or_not htag with ⟨m, n, rfl, rfl⟩ | ⟨hint, -, hcmp⟩
  · have hline : n.line ≤ m.line := by
      have h : (of m).cmp (.of n) ≠ .lt := h
      rw [cmp_eq_line, Ne, compare_lt_iff_lt] at h
      exact not_lt.mp h
    have hgetInt : (num n).getInt = n.toIntCoerced := rfl
    cases hi : n.toIntCoerced with
    | none =>
      rw [hgetInt, hi, isLE_num]
      refine hline.lt_or_eq.imp_right fun heq => ⟨heq, fun _ => ?_⟩
      by_contra hm
      obtain ⟨i, hi'⟩ := Num.exists_toIntCoerced (Bool.eq_false_iff.mpr hm) heq.symm
      rw [hi] at hi'
      cases hi'
    | some i =>
      rw [hgetInt, hi, isLE_num, Num.line_toIntCoerced hi]
      exact hline.lt_or_eq.imp_right fun heq => ⟨heq, fun hfloat => by cases hfloat⟩
  · rw [hcmp, Std.OrientedOrd.eq_swap] at h
    rw [hint]
    exact isLE_iff_ne_gt.mpr fun hgt => h (by rw [hgt]; rfl)

lemma fromAbove_contains (htag : ensureSameValueType w val = .ok ()) (h : exprCmp w val ≠ .gt)
    (hkeep : ∀ c m, val = .num (.int c) → w = .num m →
      (of (.float (F64.ofInt c.toInt))).cmp (.of m) ≠ .lt) :
    (fromAbove val).Contains w := by
  refine ⟨by simp [fromAbove, upperBound, ScanBound.Le], ?_⟩
  simp only [fromAbove, upperBound, ScanBound.Le]
  rcases num_or_not htag with ⟨m, n, rfl, rfl⟩ | ⟨-, hfloat, hcmp⟩
  · have hline : m.line ≤ n.line := by
      have h : (of m).cmp (.of n) ≠ .gt := h
      rw [cmp_eq_line, Ne, compare_gt_iff_gt] at h
      exact not_lt.mp h
    cases hrepr : n.repr with
    | float f =>
      have hget : (num n).getFloat = some f := by
        simp [getFloat, num, Num.asFloat, hrepr]
      have hlawful : f.Canonical := by
        have h := n.lawful
        rwa [hrepr] at h
      obtain rfl : n = .float f :=
        Num.ext (hrepr.trans (congrArg _ (Num.normalizeFloat_of_canonical hlawful).symm))
      rw [hget, isLE_num]
      exact hline.lt_or_eq.imp_right fun heq => ⟨heq, fun _ => rfl⟩
    | int c =>
      obtain rfl : n = .int c := Num.ext hrepr
      have hget : (num (.int c)).getFloat = some (F64.ofInt c.toInt) := rfl
      have hkeep := hkeep c m rfl rfl
      rw [cmp_eq_line, Ne, compare_lt_iff_lt, not_lt] at hkeep
      rw [hget, isLE_num]
      exact hkeep.lt_or_eq.imp_right fun heq => ⟨heq, fun _ => rfl⟩
  · rw [hcmp] at h
    rw [hfloat]
    exact isLE_iff_ne_gt.mpr h

end ValueRange

lemma exprCmp_swap (a b : DataValue) : exprCmp b a = (exprCmp a b).swap := by
  obtain ⟨v, hv⟩ := a
  obtain ⟨u, hu⟩ := b
  cases v <;> cases u
  case num.num m n =>
    change (of n).cmp (.of m) = ((of m).cmp (.of n)).swap
    rw [cmp_eq_line, cmp_eq_line]
    exact Std.OrientedOrd.eq_swap
  -- Every other pair is compared as values are.
  all_goals exact Std.OrientedOrd.eq_swap

variable {a b : DataValue}

lemma ensureSameValueType_swap (h : ensureSameValueType a b = .ok ()) :
    ensureSameValueType b a = .ok () := by
  unfold ensureSameValueType at h ⊢
  split at h
  · rename_i htag
    rw [if_pos ⟨htag.1.symm, htag.1 ▸ htag.2⟩]
  · cases h

namespace DataValue

lemma isLE_of_prefix {s l : String} (h : s.toList <+: l.toList) :
    (compare (str s) (str l)).isLE = true := by
  obtain ⟨t, ht⟩ := h
  have hl : l = s ++ String.ofList t := by
    apply String.toList_inj.mp
    simp [ht]
  have hbytes : asBytes l = asBytes s ++ asBytes (String.ofList t) := by
    rw [hl, asBytes, String.toByteArray_append, ByteArray.data_append, Array.toList_append]
    rfl
  have hle : ∀ a b : Bytes, (compare a (a ++ b)).isLE = true := by
    intro a b
    induction a with
    | nil => cases b <;> rfl
    | cons x a ih => simpa [List.compare_cons_cons] using ih
  rw [compare_str, hbytes]
  exact hle _ _

lemma eq_str_of_getStr {s : String} (h : v.getStr = some s) : v = .str s := by
  obtain ⟨v, hv⟩ := v
  cases v <;> cases h
  rfl

end DataValue

lemma compareBy_eq_true {pick : Ordering → Bool} (h : compareBy pick a b = .ok (.bool true)) :
    ensureSameValueType a b = .ok () ∧ pick (exprCmp a b) = true := by
  obtain ⟨⟨⟩, htag, h⟩ := bind_ok h
  exact ⟨htag, RawValue.bool.inj (congrArg Subtype.val (ok.inj h))⟩

namespace Expr

variable {lib : Library} {env : Symbol → Option DataValue} {target : Symbol}

/-- The constant from which a filter draws an upper bound of a column. -/
def upperConst (target : Symbol) : Expr → Option DataValue
  | .apply op [a, b] =>
    if op.name = "OP_GE" ∨ op.name = "OP_GT" then constAgainst target b a
    else if op.name = "OP_LE" ∨ op.name = "OP_LT" then constAgainst target a b
    else none
  | _ => none

/-- The string from which a filter draws the range of a column. -/
def prefixConst (target : Symbol) : Expr → Option String
  | .apply op [a, b] =>
    if op.name = "OP_STARTS_WITH" then (constAgainst target a b).bind getStr else none
  | _ => none

/-- The values a scan misses although the filter holds of them: numbers up to an integer constant
that lie above the float it is rounded to, and strings with the prefix that come after the prefix
followed by the largest character. -/
def Loses (f : Expr) (target : Symbol) (w : DataValue) : Prop :=
  (∃ c m, f.upperConst target = some (.num (.int c)) ∧ w = .num m ∧
    (of (.float (F64.ofInt c.toInt))).cmp (.of m) = .lt ∧
    (of m).cmp (.of (.int c)) ≠ .gt) ∨
  ∃ s l, f.prefixConst target = some s ∧ w = .str l ∧ s.toList <+: l.toList ∧
    compare (str (s.push largestUtfChar)) w = .lt

variable {vals : List DataValue}

lemma binary_eq_ok {name : String} {f : DataValue → DataValue → Except OpError DataValue}
    (h : binary name f vals = .ok v) :
    ∃ x y, vals = [x, y] ∧ f x y = .ok v := by
  match vals with
  | [x, y] => exact ⟨x, y, rfl, h⟩
  | [] | [_] | _ :: _ :: _ :: _ => cases h

variable {op : OpDecl}

lemma apply_of_predIn {args : List Expr} (h : (Expr.apply op args).predIn lib env = .ok true) :
    ∃ vals, evalArgs lib (readNamed env) args = .ok vals ∧
      lib.apply op vals = .ok (.bool true) := by
  obtain ⟨v, hv, h⟩ := bind_ok h
  obtain ⟨vals, hvals, hv⟩ := bind_ok hv
  refine ⟨vals, hvals, (mapError_eq_ok.mp hv).trans ?_⟩
  cases hb : v.getBool with
  | none => rw [hb] at h; cases h
  | some b =>
    rw [hb] at h
    cases h
    rw [eq_bool_of_getBool hb]

variable {a b : Expr} {x y : DataValue}

lemma evalArgs_pair {rest : List Expr}
    (h : evalArgs lib (readNamed env) (a :: b :: rest) = .ok [x, y]) :
    rest = [] ∧ a.evalIn lib env = .ok x ∧ b.evalIn lib env = .ok y := by
  obtain ⟨x', hx, h⟩ := bind_ok h
  obtain ⟨vals, hvals, h⟩ := bind_ok h
  cases ok.inj h
  obtain ⟨y', hy, hvals⟩ := bind_ok hvals
  obtain ⟨vals, hrest, hvals⟩ := bind_ok hvals
  cases ok.inj hvals
  refine ⟨?_, hx, hy⟩
  match rest with
  | [] => rfl
  | c :: rest =>
    obtain ⟨z, -, hrest⟩ := bind_ok hrest
    obtain ⟨vals, -, hrest⟩ := bind_ok hrest
    cases ok.inj hrest

variable {val w : DataValue}

lemma eval_constAgainst (hw : env target = some w)
    (h : constAgainst target a b = some val) (hx : a.evalIn lib env = .ok x)
    (hy : b.evalIn lib env = .ok y) : x = w ∧ y = val := by
  rw [constAgainst] at h
  split_ifs at h with hvar
  cases a with
  | binding var p =>
    obtain rfl : target = var := of_decide_eq_true hvar
    cases b with
    | const v =>
      cases h
      rw [evalIn, evalWith, readNamed, hw] at hx
      exact ⟨(ok.inj hx).symm, (ok.inj hy).symm⟩
    | _ => cases h
  | _ => cases hvar

lemma apply_compareBy {p : Ordering → Bool} {never : Ordering}
    (happly : lib.apply op vals = binary op.name (compareBy p) vals) (hnever : p never ≠ true)
    (h : lib.apply op vals = .ok (.bool true)) :
    ∃ x y, vals = [x, y] ∧ ensureSameValueType x y = .ok () ∧ exprCmp x y ≠ never := by
  obtain ⟨x, y, rfl, hxy⟩ := binary_eq_ok (happly.symm.trans h)
  obtain ⟨htag, hpick⟩ := compareBy_eq_true hxy
  exact ⟨x, y, rfl, htag, fun heq => hnever (heq ▸ hpick)⟩

/-- `>=` and `>` hold of values that compare and do not lie below. -/
theorem apply_atLeast
    (hop : op.name = "OP_GE" ∨ op.name = "OP_GT") (h : lib.apply op vals = .ok (.bool true)) :
    ∃ x y, vals = [x, y] ∧ ensureSameValueType x y = .ok () ∧ exprCmp x y ≠ .lt := by
  rcases hop with hop | hop
  · exact apply_compareBy (p := (· != .lt)) (by simp [Library.apply, hop, opGe]) (by decide) h
  · exact apply_compareBy (p := (· == .gt)) (by simp [Library.apply, hop, opGt]) (by decide) h

/-- `<=` and `<` hold of values that compare and do not lie above. -/
theorem apply_atMost
    (hop : op.name = "OP_LE" ∨ op.name = "OP_LT") (h : lib.apply op vals = .ok (.bool true)) :
    ∃ x y, vals = [x, y] ∧ ensureSameValueType x y = .ok () ∧ exprCmp x y ≠ .gt := by
  rcases hop with hop | hop
  · exact apply_compareBy (p := (· != .gt)) (by simp [Library.apply, hop, opLe]) (by decide) h
  · exact apply_compareBy (p := (· == .lt)) (by simp [Library.apply, hop, opLt]) (by decide) h

variable {f : Expr}

lemma fromAbove_of_not_loses (hconst : f.upperConst target = some val)
    (htag : ensureSameValueType w val = .ok ()) (hcmp : exprCmp w val ≠ .gt)
    (hkeep : ¬ f.Loses target w) : (ValueRange.fromAbove val).Contains w := by
  refine ValueRange.fromAbove_contains htag hcmp ?_
  rintro c m rfl rfl hlt
  exact hkeep (.inl ⟨c, m, hconst, rfl, hlt, hcmp⟩)

lemma comparisonRange_contains {right left : DataValue → ValueRange}
    (hw : env target = some w) (hx : a.evalIn lib env = .ok x) (hy : b.evalIn lib env = .ok y)
    (hright : constAgainst target a b = some y → x = w → (right y).Contains w)
    (hleft : constAgainst target b a = some x → y = w → (left x).Contains w) :
    (comparisonRange right left target a b).Contains w := by
  unfold comparisonRange
  cases hab : constAgainst target a b with
  | some val =>
    obtain ⟨hxw, rfl⟩ := eval_constAgainst hw hab hx hy
    exact hright hab hxw
  | none =>
    cases hba : constAgainst target b a with
    | some val =>
      obtain ⟨hyw, rfl⟩ := eval_constAgainst hw hba hy hx
      exact hleft hba hyw
    | none => exact ValueRange.contains_all w

variable {r : ValueRange}

lemma prefixRange_contains (hop : op.name = "OP_STARTS_WITH")
    (hr : prefixRange target a b = .ok r) (hw : env target = some w)
    (hx : a.evalIn lib env = .ok x) (hy : b.evalIn lib env = .ok y)
    (htrue : opStartsWith x y = .ok (.bool true))
    (hkeep : ¬ (Expr.apply op [a, b]).Loses target w) : r.Contains w := by
  unfold prefixRange at hr
  cases hab : constAgainst target a b with
  | none =>
    rw [hab] at hr
    cases hr
    exact ValueRange.contains_all w
  | some val =>
    obtain ⟨rfl, rfl⟩ := eval_constAgainst hw hab hx hy
    rw [hab] at hr
    dsimp only at hr
    cases hs : y.getStr with
    | none =>
      rw [hs] at hr
      cases hr
    | some s =>
      rw [hs] at hr
      cases hr
      obtain rfl := eq_str_of_getStr hs
      obtain ⟨v, hv⟩ := x
      cases v with
      | str l =>
        have hpre : s.toList <+: l.toList := by
          have htrue := RawValue.bool.inj (congrArg Subtype.val (ok.inj htrue))
          exact List.isPrefixOf_iff_prefix.mp htrue
        have hle := isLE_of_prefix hpre
        refine ⟨hle, isLE_iff_ne_gt.mpr fun hgt =>
          hkeep (.inr ⟨s, l, ?_, rfl, hpre, Std.OrientedCmp.lt_of_gt hgt⟩)⟩
        rw [prefixConst, if_pos hop, hab]
        rfl
      | _ => cases htrue

/-- **A range keeps what its filter lets pass**, the lost values apart. -/
theorem extractBound_contains (hr : f.extractBound target = .ok r) (hw : env target = some w)
    (htrue : f.predIn lib env = .ok true) (hkeep : ¬ f.Loses target w) : r.Contains w := by
  match f with
  | .binding .. | .const _ | .cond _ | .lazy .. | .apply _ [] | .apply _ [_] =>
    cases hr
    exact ValueRange.contains_all w
  | .unboundApply .. => cases hr
  | .apply op (a :: b :: rest) =>
    obtain ⟨vals, hvals, happly⟩ := apply_of_predIn htrue
    simp only [extractBound] at hr
    by_cases hge : op.name = "OP_GE" ∨ op.name = "OP_GT"
    · rw [if_pos hge] at hr
      cases hr
      obtain ⟨x, y, rfl, htag, hcmp⟩ := apply_atLeast hge happly
      obtain ⟨rfl, hx, hy⟩ := evalArgs_pair hvals
      refine comparisonRange_contains hw hx hy ?_ ?_
      · rintro - rfl
        exact ValueRange.fromBelow_contains htag hcmp
      · rintro hconst rfl
        refine fromAbove_of_not_loses (by rw [upperConst, if_pos hge]; exact hconst)
          (ensureSameValueType_swap htag) ?_ hkeep
        rw [exprCmp_swap]
        exact fun h => hcmp (swap_inj.mp h)
    rw [if_neg hge] at hr
    by_cases hle : op.name = "OP_LE" ∨ op.name = "OP_LT"
    · rw [if_pos hle] at hr
      cases hr
      obtain ⟨x, y, rfl, htag, hcmp⟩ := apply_atMost hle happly
      obtain ⟨rfl, hx, hy⟩ := evalArgs_pair hvals
      refine comparisonRange_contains hw hx hy ?_ ?_
      · rintro hconst rfl
        exact fromAbove_of_not_loses (by rw [upperConst, if_neg hge, if_pos hle]; exact hconst)
          htag hcmp hkeep
      · rintro - rfl
        refine ValueRange.fromBelow_contains (ensureSameValueType_swap htag) ?_
        rw [exprCmp_swap]
        exact fun h => hcmp (swap_inj.mp h)
    split_ifs at hr with hpre
    · have hbody : lib.apply op vals = binary op.name opStartsWith vals := by
        simp [Library.apply, hpre]
      obtain ⟨x, y, rfl, hxy⟩ := binary_eq_ok (hbody.symm.trans happly)
      obtain ⟨rfl, hx, hy⟩ := evalArgs_pair hvals
      exact prefixRange_contains hpre hr hw hx hy hxy hkeep
    · cases hr
      exact ValueRange.contains_all w

lemma constAgainst_eq_none (h : constAgainst target b a = some val) :
    constAgainst target a b = none := by
  unfold constAgainst at h ⊢
  cases a with
  | const v => rfl
  | _ => split at h <;> cases h

lemma extractBound_upperConst (h : f.upperConst target = some val) :
    f.extractBound target = .ok (.fromAbove val) := by
  match f with
  | .apply op [a, b] =>
    rw [upperConst] at h
    rw [extractBound]
    split at h
    · rename_i hge
      rw [if_pos hge, comparisonRange, constAgainst_eq_none h, h]
    · rename_i hge
      split at h
      · rename_i hle
        rw [if_neg hge, if_pos hle, comparisonRange, h]
      · cases h

lemma extractBound_prefixConst {s : String} (h : f.prefixConst target = some s) :
    f.extractBound target = .ok ⟨.value (.str s), .value (.str (s.push largestUtfChar))⟩ := by
  match f with
  | .apply op [a, b] =>
    rw [prefixConst] at h
    split at h
    · rename_i hop
      obtain ⟨val, hval, hs⟩ := Option.bind_eq_some_iff.mp h
      rw [extractBound, hop, if_neg (by decide), if_neg (by decide), if_pos rfl, prefixRange, hval]
      dsimp only
      rw [hs]
    · cases h

lemma Loses.not_contains (h : f.Loses target w) (hr : f.extractBound target = .ok r) :
    ¬ r.Contains w := by
  rcases h with ⟨c, m, hconst, rfl, hlt, -⟩ | ⟨s, l, hconst, rfl, -, hlt⟩
  · obtain rfl := ok.inj ((extractBound_upperConst hconst).symm.trans hr)
    rintro ⟨-, hle⟩
    rw [cmp_eq_line, compare_lt_iff_lt] at hlt
    rcases isLE_num.mp hle with hline | ⟨hline, -⟩
    · exact lt_asymm hlt hline
    · exact hlt.ne' hline
  · obtain rfl := ok.inj ((extractBound_prefixConst hconst).symm.trans hr)
    rintro ⟨-, hle⟩
    exact isLE_iff_ne_gt.mp hle (Std.OrientedCmp.gt_of_lt hlt)

end Expr

end Kyzo

import Kyzo.Value.Access

/-!
# Sums and products

The aggregations `sum` and `product` accumulate exactly in `i128` as long as they can, and in
floating point from the first result on that does not fit.  What comes after a demotion does not
bring an exact result back.
-/

namespace Kyzo

open List

inductive NumAccum where
  | int (acc : ℤ)
  | float (acc : F64)

def FitsI64 (v : ℤ) : Prop := -2 ^ 63 ≤ v ∧ v < 2 ^ 63

def FitsI128 (v : ℤ) : Prop := -2 ^ 127 ≤ v ∧ v < 2 ^ 127

instance (v : ℤ) : Decidable (FitsI64 v) := inferInstanceAs (Decidable (_ ∧ _))

instance (v : ℤ) : Decidable (FitsI128 v) := inferInstanceAs (Decidable (_ ∧ _))

def Num.toF64 (n : Num) : F64 :=
  match n.repr with
  | .int v => .ofInt v.toInt
  | .float v => v

namespace NumAccum

def fold (a : NumAccum) (n : Num) (intOp : ℤ → ℤ → Option ℤ) (floatOp : F64 → F64 → F64) :
    NumAccum :=
  match a, n.repr with
  | .int acc, .int i =>
    match intOp acc i.toInt with
    | some acc => .int acc
    | none => .float (floatOp (.ofInt acc) (.ofInt i.toInt))
  | .int acc, .float f => .float (floatOp (.ofInt acc) f)
  | .float acc, _ => .float (floatOp acc n.toF64)

def finish : NumAccum → DataValue
  | .int acc => if FitsI64 acc then .num (.int (.ofInt acc)) else .num (.float (.ofInt acc))
  | .float f => .num (.float f)

end NumAccum

/-- The operations of `f64`, of which nothing is assumed. -/
structure FloatOps where
  add : F64 → F64 → F64
  mul : F64 → F64 → F64

/-- `AggrSum` and `AggrProduct`. -/
inductive NumAggr where
  | sum
  | product

/-- "cannot compute '..': encountered value ..". -/
structure CannotCompute where
  aggr : String
  value : DataValue

namespace NumAggr

def name : NumAggr → String
  | .sum => "sum"
  | .product => "product"

def start : NumAggr → ℤ
  | .sum => 0
  | .product => 1

def op : NumAggr → ℤ → ℤ → ℤ
  | .sum => (· + ·)
  | .product => (· * ·)

/-- `i128::checked_add` and `i128::checked_mul`. -/
def checked (agg : NumAggr) (a b : ℤ) : Option ℤ :=
  if FitsI128 (agg.op a b) then some (agg.op a b) else none

def floatOp (ops : FloatOps) : NumAggr → F64 → F64 → F64
  | .sum => ops.add
  | .product => ops.mul

variable (ops : FloatOps) (agg : NumAggr)

def set (a : NumAccum) (value : DataValue) : Except CannotCompute NumAccum :=
  match value.val with
  | .num n => .ok (a.fold n agg.checked (agg.floatOp ops))
  | _ => .error ⟨agg.name, value⟩

/-- The aggregation of a sequence: `set` of each value, then `get`. -/
def aggregate (values : List DataValue) : Except CannotCompute DataValue :=
  (values.foldlM (agg.set ops) (.int agg.start)).map NumAccum.finish

/-- The exact result. -/
def total (values : List Int64) : ℤ :=
  match agg with
  | .sum => (values.map Int64.toInt).sum
  | .product => (values.map Int64.toInt).prod

variable {ops agg} {values front : List Int64} {v : Int64}

lemma total_concat : agg.total (values ++ [v]) = agg.op (agg.total values) v.toInt := by
  cases agg <;> simp [total, op]

/-- The accumulator is exact as long as every result so far fits, and a float afterwards. -/
theorem foldlM_set (ops : FloatOps) (agg : NumAggr) (values : List Int64) :
    ∃ a, (values.map fun v => .num (.int v)).foldlM (agg.set ops) (.int agg.start) = .ok a ∧
      ((∀ front, front <+: values → FitsI128 (agg.total front)) → a = .int (agg.total values)) ∧
      (¬(∀ front, front <+: values → FitsI128 (agg.total front)) → ∃ f, a = .float f) := by
  have hstart : FitsI128 agg.start := by cases agg <;> decide
  have hempty : agg.total [] = agg.start := by cases agg <;> rfl
  induction values using List.reverseRecOn with
  | nil =>
    refine ⟨_, rfl, fun _ => congrArg _ hempty.symm, fun h => absurd (fun front hfront => ?_) h⟩
    rwa [prefix_nil.mp hfront]
  | append_singleton values v ih =>
    obtain ⟨a, ha, hint, hfloat⟩ := ih
    refine ⟨a.fold (.int v) agg.checked (agg.floatOp ops), ?_, ?_, ?_⟩
    · rw [map_append, foldlM_append, ha]
      rfl
    all_goals simp only [prefix_concat_iff, or_imp, forall_and, forall_eq, total_concat]
    · rintro ⟨hfit, hold⟩
      rw [hint hold]
      simp [NumAccum.fold, checked, hfit, Num.int]
    · intro h
      by_cases hold : ∀ front, front <+: values → FitsI128 (agg.total front)
      · rw [hint hold]
        have hfit : ¬FitsI128 (agg.op (agg.total values) v.toInt) := fun hfit => h ⟨hfit, hold⟩
        exact ⟨_, by simp [NumAccum.fold, checked, hfit, Num.int]; rfl⟩
      · obtain ⟨f, rfl⟩ := hfloat hold
        exact ⟨_, rfl⟩

lemma total_perm (h : front ~ values) : agg.total front = agg.total values := by
  cases agg with
  | sum => exact (h.map _).sum_eq
  | product => exact (h.map _).prod_eq

/-- **When a sum or a product is exact**: in the orders in which every result on the way fits in
`i128`. -/
theorem aggregate_exact_iff (ops : FloatOps) (agg : NumAggr) {values order : List Int64}
    (hfit : FitsI64 (agg.total values)) (horder : order ~ values) :
    agg.aggregate ops (order.map fun v => .num (.int v)) =
        .ok (.num (.int (.ofInt (agg.total values)))) ↔
      ∀ front, front <+: order → FitsI128 (agg.total front) := by
  obtain ⟨a, ha, hint, hfloat⟩ := foldlM_set ops agg order
  rw [aggregate, ha]
  refine ⟨fun hok => by_contra fun hnot => ?_, fun hall => ?_⟩
  · obtain ⟨f, rfl⟩ := hfloat hnot
    have hnum := congrArg Subtype.val (Except.ok.inj hok)
    cases congrArg Num.repr (RawValue.num.inj hnum)
  · rw [hint hall, total_perm horder]
    exact congrArg Except.ok (if_pos hfit)

theorem aggregate_exact_backAndForth :
    (fun ops => sum.aggregate ops ([.maxValue, 1, .minValue].map fun v => .num (.int v))) =
      fun _ => .ok (.num (.int 0)) :=
  funext fun ops => (aggregate_exact_iff ops .sum (by decide) (.refl _)).mpr
    (by simp only [← mem_inits]; decide)

/-- Three large factors leave `i128`, and the zero that follows gives a float. -/
theorem product_demotes_before_zero : product.total [.maxValue, .maxValue, .maxValue, 0] = 0 ∧
    (fun ops => product.aggregate ops
      ([.maxValue, .maxValue, .maxValue, 0].map fun v => .num (.int v))) = fun ops =>
      .ok (.num (.float (ops.mul (ops.mul (.ofInt (Int64.maxValue.toInt ^ 2))
        (.ofInt Int64.maxValue.toInt)) (.ofInt 0)))) :=
  ⟨by decide, rfl⟩

end NumAggr

end Kyzo

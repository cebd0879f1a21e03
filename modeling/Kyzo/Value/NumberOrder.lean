import Kyzo.Lib.Float64Value
import Kyzo.Value.Number

/-!
# The order of numbers is the order of their exact values

`Num.line` places a number on the line of extended reals with one more place, for NaN, above
everything.  The storage order `Num.cmp` is the order of these places with integers before floats
at one place, and the order of query semantics `NumericOrd.cmp` is the order of the places alone.
-/

namespace Kyzo

open F64 Kyzo.Num

/-! ## Query-semantic order -/

/-- `int_float_eq`: the float is integral, in range, and equal. -/
def intFloatEq (i : Int64) (f : F64) : Bool :=
  if !f.isFinite || !f.fractIsZero then false
  else if !((ofInt (-2 ^ 63)).le f && f.lt (ofInt (2 ^ 63))) then false
  else f.toInt64 == i

/-- `NumericOrd`: a number under its query-semantic order. -/
structure NumericOrd where
  /-- The wrapped number. -/
  get : Num

namespace NumericOrd

def of (n : Num) : NumericOrd := ⟨n⟩

/-- The test whether two numbers of different representations are equal reals. -/
def same (a b : Num) : Bool :=
  (match a.asInt, b.asFloat with
    | some i, some f => intFloatEq i f
    | _, _ => false) ||
  (match a.asFloat, b.asInt with
    | some f, some i => intFloatEq i f
    | _, _ => false)

/-- `impl Ord for NumericOrd`: the storage order without its tie-break. -/
def cmp (a b : NumericOrd) : Ordering :=
  match a.get.cmp b.get with
  | .eq => .eq
  | o =>
    if a.get.reprByte ≠ b.get.reprByte then
      if same a.get b.get then .eq else o
    else o

end NumericOrd

/-! ## Places on the line -/

namespace Num

/-- The place of a number: its exact real value, the infinities at the ends of the extended reals,
and NaN above them. -/
noncomputable def line (n : Num) : WithTop EReal :=
  match n.repr with
  | .int v => ((v.toInt : ℝ) : EReal)
  | .float v =>
    if v.isNaN then ⊤
    else if v.isInfinite then (if v.signBit then (⊥ : EReal) else (⊤ : EReal))
    else (v.toReal : EReal)

/-- Floats come after integers at one place. -/
def isFloat (n : Num) : Bool :=
  match n.repr with
  | .int _ => false
  | .float _ => true

/-- The value of a magnitude. -/
noncomputable def Magnitude.toEReal : Magnitude → EReal
  | .inf => ⊤
  | .finite expKey frac72 => (((frac72 * 2 ^ expKey : ℕ) / (2 ^ 1152 : ℕ) : ℝ) : EReal)

lemma Magnitude.toEReal_finite (e f : ℕ) :
    (Magnitude.finite e f).toEReal = ((f * 2 ^ e / 2 ^ 1152 : ℝ) : EReal) := by
  rw [toEReal]
  push_cast
  rfl

lemma compare_reprByte (a b : Num) :
    compare a.reprByte b.reprByte = compare a.isFloat b.isFloat := by
  obtain ⟨ra, ha⟩ := a
  obtain ⟨rb, hb⟩ := b
  cases ra <;> cases rb <;> rfl

/-! ## Magnitudes -/

lemma mul_two_pow_lt {e e' f f' n : ℕ} (hlow : 2 ^ n ≤ f') (hhigh : f < 2 ^ (n + 1))
    (h : e < e') : f * 2 ^ e < f' * 2 ^ e' := by
  calc f * 2 ^ e < 2 ^ (n + 1) * 2 ^ e := Nat.mul_lt_mul_of_pos_right hhigh (by positivity)
    _ = 2 ^ n * 2 ^ (e + 1) := by ring
    _ ≤ f' * 2 ^ e' := Nat.mul_le_mul hlow (Nat.pow_le_pow_right (by norm_num) h)

lemma compare_of_strictMono {α β : Type*} [LinearOrder α] [LinearOrder β] {f : α → β}
    (hf : StrictMono f) (a b : α) : compare (f a) (f b) = compare a b := by
  rw [← cmp_eq_compare, hf.cmp_map_eq, cmp_eq_compare]

lemma Magnitude.compare_finite {ea fa eb fb : ℕ} (ha : (Magnitude.finite ea fa).Normal)
    (hb : (Magnitude.finite eb fb).Normal) :
    (compare ea eb).then (compare fa fb) = compare (fa * 2 ^ ea) (fb * 2 ^ eb) := by
  obtain ⟨-, -, hla, hha⟩ := ha
  obtain ⟨-, -, hlb, hhb⟩ := hb
  rcases lt_trichotomy ea eb with h | h | h
  · rw [compare_lt_iff_lt.mpr h, compare_lt_iff_lt.mpr (mul_two_pow_lt hlb hha h)]
    rfl
  · subst h
    have hpos : 0 < 2 ^ ea := by positivity
    rw [compare_eq_iff_eq.mpr rfl]
    exact (compare_of_strictMono (fun _ _ hf => Nat.mul_lt_mul_of_pos_right hf hpos) fa fb).symm
  · rw [compare_gt_iff_gt.mpr h, compare_gt_iff_gt.mpr (mul_two_pow_lt hla hhb h)]
    rfl

lemma strictMono_scaled : StrictMono fun n : ℕ => ((n / 2 ^ 1152 : ℝ) : EReal) := by
  intro m n h
  rw [EReal.coe_lt_coe_iff]
  gcongr

lemma Magnitude.cmp_eq {a b : Magnitude} (ha : a.Normal) (hb : b.Normal) :
    a.cmp b = compare a.toEReal b.toEReal := by
  cases a with
  | inf =>
    cases b with
    | inf => exact (compare_eq_iff_eq.mpr rfl).symm
    | finite eb fb => exact (compare_gt_iff_gt.mpr (EReal.coe_lt_top _)).symm
  | finite ea fa =>
    cases b with
    | inf => exact (compare_lt_iff_lt.mpr (EReal.coe_lt_top _)).symm
    | finite eb fb =>
      have h := compare_of_strictMono strictMono_scaled (fa * 2 ^ ea) (fb * 2 ^ eb)
      push_cast at h
      rw [Magnitude.cmp, Magnitude.compare_finite ha hb, ← h, toEReal_finite, toEReal_finite]

lemma Magnitude.toEReal_pos {m : Magnitude} (h : m.Normal) : 0 < m.toEReal := by
  cases m with
  | inf => exact EReal.zero_lt_top
  | finite e f =>
    obtain ⟨-, -, hlow, -⟩ := h
    have hval : (0 : ℝ) < f * 2 ^ e / 2 ^ 1152 := by positivity
    rw [toEReal_finite]
    exact EReal.coe_pos.mpr hval

/-! ## From class and magnitude to the line -/

lemma signed_real {neg : Bool} {e f : ℕ} {r : ℝ}
    (hr : r = (if neg then -1 else 1) * (f * 2 ^ e / 2 ^ 1152)) :
    (r : EReal) = if neg then -(Magnitude.finite e f).toEReal
      else (Magnitude.finite e f).toEReal := by
  cases neg with
  | false =>
    simp only [Bool.false_eq_true, if_false, one_mul] at hr ⊢
    rw [hr, Magnitude.toEReal_finite]
  | true =>
    simp only [if_true, neg_one_mul] at hr ⊢
    rw [hr, Magnitude.toEReal_finite, EReal.coe_neg]

lemma int_real {v : Int64} (hv : v ≠ 0) :
    ((v.toInt : ℝ) : EReal) = if (int v).signMagnitude.1 then -(int v).signMagnitude.2.toEReal
      else (int v).signMagnitude.2.toEReal := by
  rw [signMagnitude_int hv]
  apply signed_real
  obtain ⟨-, -, hlog⟩ := natAbs_toInt hv
  set m := v.toInt.natAbs with hm
  set bl := m.log2 + 1 with hbl
  -- The two powers of two add up to the scale.
  have hpow : (2 : ℝ) ^ (72 - bl) * 2 ^ (bl + 1080) = 2 ^ 1152 := by
    have hexp : 72 - bl + (bl + 1080) = 1152 := by omega
    rw [← pow_add, hexp]
  have hscale : ((m * 2 ^ (72 - bl) : ℕ) : ℝ) * 2 ^ (bl + 1080) / 2 ^ 1152 = m := by
    push_cast
    rw [mul_assoc, hpow, mul_div_assoc, div_self (by positivity), mul_one]
  rw [hscale]
  have habs : v.toInt = (if v.toInt < 0 then -1 else 1) * (m : ℤ) := by
    split <;> omega
  have hcast : (v.toInt : ℝ) = ((if v.toInt < 0 then -1 else 1 : ℤ) : ℝ) * ((m : ℤ) : ℝ) := by
    rw [← Int.cast_mul, ← habs]
  rw [hcast]
  by_cases hneg : v.toInt < 0 <;> simp [hneg]

variable {n : Num}

lemma float_real {v : F64} (hn : n.repr = .float v) (hnan : v.isNaN = false)
    (hfin : (0 < v.expField ∧ v.expField < 2047) ∨ (v.expField = 0 ∧ v.fracField ≠ 0)) :
    (v.toReal : EReal) = if n.signMagnitude.1 then -n.signMagnitude.2.toEReal
      else n.signMagnitude.2.toEReal := by
  have hsign : v.signBit = v.isNeg := by
    apply signBit_eq_isNeg hnan
    rw [toNat_mod]
    omega
  obtain ⟨hpos, hlt⟩ | ⟨hexp, hfrac⟩ := hfin
  · rw [signMagnitude_normal hn hpos hlt]
    apply signed_real
    have hmax : max (v.expField : ℤ) 1 - 1075 = ((v.expField + 77 : ℕ) : ℤ) - (1152 : ℕ) := by
      omega
    rw [toReal, hsign, significand, if_neg hpos.ne', hmax, zpow_sub₀ (by norm_num),
      zpow_natCast, zpow_natCast]
    push_cast
    ring
  · have hlog : v.fracField.log2 < 52 := (Nat.log2_lt hfrac).mpr v.fracField_lt
    rw [signMagnitude_subnormal hn hexp hfrac]
    apply signed_real
    set bl := v.fracField.log2 + 1 with hbl
    have hpow : (2 : ℝ) ^ (72 - bl) * 2 ^ (bl + 6) = 2 ^ 78 := by
      rw [← pow_add]
      congr 1
      omega
    have hmax : max (v.expField : ℤ) 1 - 1075 = ((78 : ℕ) : ℤ) - (1152 : ℕ) := by
      omega
    rw [toReal, hsign, significand, if_pos hexp, hmax, zpow_sub₀ (by norm_num),
      zpow_natCast, zpow_natCast, ← hpow]
    push_cast
    ring

lemma Signed.line_eq (h : n.Signed) :
    n.line = ((if n.signMagnitude.1 then -n.signMagnitude.2.toEReal
      else n.signMagnitude.2.toEReal : EReal) : WithTop EReal) := by
  obtain ⟨v, rfl, hv⟩ | ⟨v, hn, hnan, -, hinf | hfin⟩ := h.cases
  · rw [← int_real hv]
    rfl
  · have hmag : v.bits.toNat % 2 ^ 63 ≠ 0 := by
      simp only [isInfinite, Bool.and_eq_true, decide_eq_true_eq] at hinf
      rw [toNat_mod]
      omega
    rw [signMagnitude_infinite hn hinf, ← signBit_eq_isNeg hnan hmag]
    simp only [line, hn, hnan, hinf, Magnitude.toEReal, Bool.false_eq_true, if_false, if_true,
      EReal.neg_top]
    split <;> rfl
  · have hinf : v.isInfinite = false := by
      simp only [isInfinite, Bool.and_eq_false_imp, decide_eq_true_eq]
      omega
    rw [← float_real hn hnan hfin]
    simp [line, hn, hnan, hinf, Bool.false_eq_true]

lemma line_of_zero (h : n.classByte = classZero) : n.line = 0 := by
  obtain rfl | rfl | rfl := not_signed_cases fun hs => hs.1 h
  · simp [line, int]
  · have hnan : (normalizeFloat zero).isNaN = false := by decide
    have hinf : (normalizeFloat zero).isInfinite = false := by decide
    have hreal : (normalizeFloat zero).toReal = 0 := by
      have hunits : (normalizeFloat zero).signedUnits = 0 := by decide
      rw [toReal_eq, hunits]
      simp
    simp [line, float, hnan, hinf, hreal]
  · exact absurd h (by decide)

lemma line_of_nan (h : n.classByte = classNan) : n.line = ⊤ := by
  obtain rfl | rfl | rfl := not_signed_cases fun hs => hs.2 h
  · exact absurd h (by decide)
  · exact absurd h (by decide)
  · have hnan : (normalizeFloat ⟨canonNanBits⟩).isNaN = true := by decide
    simp [line, float, hnan]

lemma line_of_neg (h : n.classByte = classNeg) : n.line < 0 := by
  have hs : n.Signed := by
    rw [Signed, h]
    decide
  have hneg : n.signMagnitude.1 = true := by
    by_contra hc
    have hclass := hs.classByte_eq
    rw [h, if_neg hc] at hclass
    exact absurd hclass (by decide)
  have hpos := Magnitude.toEReal_pos hs.normal
  rw [hs.line_eq, if_pos hneg]
  exact WithTop.coe_lt_coe.mpr (by simpa using hpos)

lemma line_of_pos (h : n.classByte = classPos) : 0 < n.line ∧ n.line < ⊤ := by
  have hs : n.Signed := by
    rw [Signed, h]
    decide
  have hneg : ¬ n.signMagnitude.1 = true := by
    intro hc
    have hclass := hs.classByte_eq
    rw [h, if_pos hc] at hclass
    exact absurd hclass (by decide)
  have hpos := Magnitude.toEReal_pos hs.normal
  rw [hs.line_eq, if_neg hneg]
  exact ⟨WithTop.coe_lt_coe.mpr hpos, WithTop.coe_lt_top _⟩

lemma classByte_cases (n : Num) : n.classByte = classNeg ∨ n.classByte = classZero ∨
    n.classByte = classPos ∨ n.classByte = classNan := by
  by_cases hs : n.Signed
  · have h := hs.classByte_eq
    split at h
    · exact .inl h
    · exact .inr (.inr (.inl h))
  · rcases not_and_or.mp hs with h | h
    · exact .inr (.inl (not_not.mp h))
    · exact .inr (.inr (.inr (not_not.mp h)))

lemma line_lt_of_classByte_lt {a b : Num} (h : a.classByte < b.classByte) : a.line < b.line := by
  rcases a.classByte_cases with ha | ha | ha | ha <;>
    rcases b.classByte_cases with hb | hb | hb | hb <;>
    rw [ha, hb] at h <;> first | exact absurd h (by decide) | skip
  · exact (line_of_neg ha).trans_eq (line_of_zero hb).symm
  · exact (line_of_neg ha).trans (line_of_pos hb).1
  · rw [line_of_nan hb]
    exact (line_of_neg ha).trans (WithTop.coe_lt_top _)
  · rw [line_of_zero ha]
    exact (line_of_pos hb).1
  · rw [line_of_zero ha, line_of_nan hb]
    exact WithTop.coe_lt_top _
  · rw [line_of_nan hb]
    exact (line_of_pos ha).2

lemma cmp_eq_line (a b : Num) :
    a.cmp b = (compare a.line b.line).then (compare a.isFloat b.isFloat) := by
  rw [← compare_reprByte]
  rcases Std.lt_trichotomy a.classByte b.classByte with hlt | hclass | hgt
  · have hcmp : a.cmp b = .lt := by
      rw [cmp, if_pos (UInt8.ne_of_lt hlt), Std.compare_eq_lt.mpr hlt]
    rw [hcmp, compare_lt_iff_lt.mpr (line_lt_of_classByte_lt hlt)]
    rfl
  · by_cases hs : a.Signed
    · have hs' : b.Signed := by rwa [Signed, ← hclass]
      have hsign : a.signMagnitude.1 = b.signMagnitude.1 := sign_eq_of_classByte_eq hs hs' hclass
      have hmag := Magnitude.cmp_eq hs.normal hs'.normal
      have hreal : (if a.signMagnitude.1 then (a.signMagnitude.2.cmp b.signMagnitude.2).swap
          else a.signMagnitude.2.cmp b.signMagnitude.2) = compare a.line b.line := by
        rw [hs.line_eq, hs'.line_eq, compare_of_strictMono WithTop.coe_strictMono, ← hsign, hmag]
        split
        · rw [← cmp_eq_compare, ← cmp_eq_compare, EReal.neg_strictAnti.cmp_map_eq, cmp_swap]
        · rfl
      rw [cmp, if_neg (not_not.mpr hclass), if_neg (not_or.mpr hs)]
      simp [hreal]
    · have hkind : a.classByte = classZero ∨ a.classByte = classNan := by
        by_contra hc
        exact hs (not_or.mp hc)
      have hline : a.line = b.line := by
        rcases hkind with h | h
        · rw [line_of_zero h, line_of_zero (hclass ▸ h)]
        · rw [line_of_nan h, line_of_nan (hclass ▸ h)]
      rw [cmp, if_neg (not_not.mpr hclass), if_pos hkind, hline, compare_eq_iff_eq.mpr rfl]
      rfl
  · have hcmp : a.cmp b = .gt := by
      rw [cmp, if_pos (UInt8.ne_of_lt hgt).symm, Std.compare_eq_gt.mpr hgt]
    rw [hcmp, compare_gt_iff_gt.mpr (line_lt_of_classByte_lt hgt)]
    rfl

end Num

/-! ## Integers and floats at one place -/

variable {f : F64}

lemma signedUnits_of_whole {u : ℕ} (hu : f.units = 2 ^ 1074 * u) :
    f.signedUnits = 2 ^ 1074 * (if f.signBit then -(u : ℤ) else u) := by
  rw [signedUnits, hu]
  split <;> push_cast <;> ring

lemma toInt_toInt64 (hnan : f.isNaN = false) {u : ℕ}
    (hu : f.units = 2 ^ 1074 * u) (hlow : -2 ^ 63 ≤ (if f.signBit then -(u : ℤ) else u))
    (hhigh : (if f.signBit then -(u : ℤ) else u) < 2 ^ 63) :
    f.toInt64.toInt = if f.signBit then -(u : ℤ) else u := by
  have hdiv : f.units / 2 ^ 1074 = u := by
    rw [hu, Nat.mul_div_cancel_left _ (by positivity)]
  simp only [toInt64, hnan, hdiv, Bool.false_eq_true, if_false]
  rw [min_eq_left (by omega), max_eq_right hlow]
  exact Int64.toInt_ofInt_of_le hlow hhigh

lemma range_iff (hnan : f.isNaN = false) :
    ((ofInt (-2 ^ 63)).le f && f.lt (ofInt (2 ^ 63))) = true ↔
      2 ^ 1074 * (-2 ^ 63) ≤ f.signedUnits ∧ f.signedUnits < 2 ^ 1074 * 2 ^ 63 := by
  have hlow : (ofInt (-2 ^ 63)).signedUnits = 2 ^ 1074 * (-2 ^ 63) := by decide +kernel
  have hhigh : (ofInt (2 ^ 63)).signedUnits = 2 ^ 1074 * 2 ^ 63 := by decide +kernel
  have hlowNaN : (ofInt (-2 ^ 63)).isNaN = false := by decide +kernel
  have hhighNaN : (ofInt (2 ^ 63)).isNaN = false := by decide +kernel
  rw [← hlow, ← hhigh, ← rank_le_iff, ← rank_lt_iff]
  simp only [le, lt, hnan, hlowNaN, hhighNaN, Bool.not_false, Bool.true_and,
    Bool.and_eq_true, decide_eq_true_eq]

lemma toReal_eq_int_iff {i : ℤ} : f.toReal = (i : ℝ) ↔ f.signedUnits = 2 ^ 1074 * i := by
  rw [toReal_eq, div_eq_iff (by positivity), mul_comm]
  exact_mod_cast Iff.rfl

lemma intFloatEq_of_finite {i : Int64} (hfin : f.isFinite = true) :
    intFloatEq i f = true ↔ f.units % 2 ^ 1074 = 0 ∧
      ((ofInt (-2 ^ 63)).le f && f.lt (ofInt (2 ^ 63))) = true ∧ f.toInt64 = i := by
  rw [intFloatEq, hfin, fractIsZero]
  by_cases hwhole : f.units % 2 ^ 1074 = 0
  · cases hrange : (ofInt (-2 ^ 63)).le f && f.lt (ofInt (2 ^ 63)) <;>
      simp [hwhole]
  · simp [hwhole]

lemma intFloatEq_iff (i : Int64) (f : F64) :
    intFloatEq i f = true ↔ f.isFinite = true ∧ f.toReal = (i.toInt : ℝ) := by
  rw [toReal_eq_int_iff]
  have hpos : (0 : ℤ) < 2 ^ 1074 := by positivity
  by_cases hfin : f.isFinite = true
  · have hnan : f.isNaN = false := by
      simp only [isFinite, decide_eq_true_eq] at hfin
      simp [isNaN, hfin]
    rw [intFloatEq_of_finite hfin, range_iff hnan, and_iff_right hfin]
    constructor
    · rintro ⟨hwhole, ⟨hlow, hhigh⟩, hcast⟩
      obtain ⟨u, hu⟩ := Nat.dvd_of_mod_eq_zero hwhole
      have hunits := signedUnits_of_whole hu
      rw [hunits] at hlow hhigh
      rw [hunits, ← hcast, toInt_toInt64 hnan hu (Int.le_of_mul_le_mul_left hlow hpos)
        (Int.lt_of_mul_lt_mul_left hhigh hpos.le)]
    · intro hunits
      have hilow := i.le_toInt
      have hihigh := i.toInt_lt
      -- The units are those of the integer's absolute value.
      have hu : f.units = 2 ^ 1074 * i.toInt.natAbs := by
        have habs : f.units = f.signedUnits.natAbs := by
          rw [signedUnits]
          split <;> simp
        rw [habs, hunits, Int.natAbs_mul]
        rfl
      have hsigned : (if f.signBit then -(i.toInt.natAbs : ℤ) else i.toInt.natAbs) = i.toInt := by
        have h := signedUnits_of_whole hu
        rw [hunits] at h
        exact (Int.eq_of_mul_eq_mul_left hpos.ne' h).symm
      refine ⟨by rw [hu, Nat.mul_mod_right], ⟨?_, ?_⟩, ?_⟩
      · rw [hunits]
        exact Int.mul_le_mul_of_nonneg_left hilow hpos.le
      · rw [hunits]
        exact Int.mul_lt_mul_of_pos_left hihigh hpos
      · apply Int64.toInt_inj.mp
        rw [toInt_toInt64 hnan hu (by rw [hsigned]; exact hilow) (by rw [hsigned]; exact hihigh),
          hsigned]
  · simp [intFloatEq, hfin]

lemma line_int_eq_float {a b : Num} {i : Int64} (ha : a.repr = .int i)
    (hb : b.repr = .float f) : a.line = b.line ↔ intFloatEq i f = true := by
  rw [intFloatEq_iff]
  simp only [line, ha, hb]
  by_cases hnan : f.isNaN = true
  · have hfin : f.isFinite = false := by
      simp only [isNaN, Bool.and_eq_true, decide_eq_true_eq] at hnan
      simp [isFinite, hnan.1]
    simp [hnan, hfin]
  · by_cases hinf : f.isInfinite = true
    · have hfin : f.isFinite = false := by
        simp only [isInfinite, Bool.and_eq_true, decide_eq_true_eq] at hinf
        simp [isFinite, hinf.1]
      cases hsign : f.signBit <;> simp [hnan, hinf, hfin]
    · have hfin : f.isFinite = true := by
        simp only [isInfinite, isNaN, Bool.and_eq_true, decide_eq_true_eq] at hinf hnan
        simp only [isFinite, decide_eq_true_eq]
        tauto
      simp only [hnan, hinf, hfin, Bool.false_eq_true, if_false, true_and]
      rw [WithTop.coe_inj, EReal.coe_eq_coe_iff, eq_comm]

lemma NumericOrd.same_iff {a b : Num} (h : a.reprByte ≠ b.reprByte) :
    NumericOrd.same a b = true ↔ a.line = b.line := by
  cases ha : a.repr with
  | int i =>
    cases hb : b.repr with
    | int j => exact absurd (by rw [reprByte, reprByte, ha, hb]) h
    | float g =>
      rw [line_int_eq_float ha hb]
      simp [NumericOrd.same, asInt, asFloat, ha, hb]
  | float f =>
    cases hb : b.repr with
    | int j =>
      rw [eq_comm (a := a.line), line_int_eq_float hb ha]
      simp [NumericOrd.same, asInt, asFloat, ha, hb]
    | float g => exact absurd (by rw [reprByte, reprByte, ha, hb]) h

lemma NumericOrd.cmp_eq_line (a b : NumericOrd) : a.cmp b = compare a.get.line b.get.line := by
  have hcmp := a.get.cmp_eq_line b.get
  rw [← compare_reprByte] at hcmp
  by_cases hline : a.get.line = b.get.line
  · rw [hline] at hcmp
    rw [hline]
    by_cases hrepr : a.get.reprByte = b.get.reprByte
    · have hself : compare a.get.reprByte b.get.reprByte = .eq := by
        rw [hrepr]
        exact Std.ReflCmp.compare_self
      rw [hself] at hcmp
      simp [NumericOrd.cmp, hcmp]
    · have hsame := (NumericOrd.same_iff hrepr).mpr hline
      cases hc : a.get.cmp b.get <;> simp [NumericOrd.cmp, hc, hrepr, hsame]
  · have hne : compare a.get.line b.get.line ≠ .eq := fun h => hline (compare_eq_iff_eq.mp h)
    have hcmp' : a.get.cmp b.get = compare a.get.line b.get.line := by
      cases hc : compare a.get.line b.get.line <;> simp_all
    rw [← hcmp'] at hne ⊢
    by_cases hrepr : a.get.reprByte = b.get.reprByte
    · cases hc : a.get.cmp b.get <;> simp [NumericOrd.cmp, hc, hrepr]
    · have hsame : NumericOrd.same a.get b.get = false := by
        rw [← Bool.not_eq_true, NumericOrd.same_iff hrepr]
        exact hline
      cases hc : a.get.cmp b.get <;> simp [NumericOrd.cmp, hc, hsame]

/-! ## Total preorders -/

/-- A comparison function that is a total preorder: reflexive, total, transitive, and antisymmetric
up to what compares equal. -/
structure TotalPreorder {α : Type*} (cmp : α → α → Ordering) : Prop where
  refl : ∀ a, cmp a a = .eq
  total : ∀ a b, (cmp a b).isLE ∨ (cmp b a).isLE
  antisymm : ∀ a b, (cmp a b).isLE → (cmp b a).isLE → cmp a b = .eq
  trans : ∀ a b c, (cmp a b).isLE → (cmp b c).isLE → (cmp a c).isLE

lemma TotalPreorder.of_keys {α β γ : Type*} [LinearOrder β] [LinearOrder γ]
    {cmp : α → α → Ordering} (f : α → β) (g : α → γ)
    (h : ∀ a b, cmp a b = (compare (f a) (f b)).then (compare (g a) (g b))) :
    TotalPreorder cmp := by
  have hle : ∀ a b, (cmp a b).isLE ↔ toLex (f a, g a) ≤ toLex (f b, g b) := by
    intro a b
    rw [h, Prod.Lex.toLex_le_toLex]
    rcases lt_trichotomy (f a) (f b) with hf | hf | hf
    · simp [compare_lt_iff_lt.mpr hf, hf]
    · simp [hf, ← Ordering.ne_gt_iff_isLE, compare_le_iff_le]
    · simp [compare_gt_iff_gt.mpr hf, hf.not_gt, hf.ne']
  have heq : ∀ a b, cmp a b = .eq ↔ toLex (f a, g a) = toLex (f b, g b) := by
    intro a b
    rw [h, Ordering.then_eq_eq, compare_eq_iff_eq, compare_eq_iff_eq, toLex_inj, Prod.mk.injEq]
  constructor
  · intro a
    exact (heq a a).mpr rfl
  · intro a b
    rw [hle, hle]
    exact le_total _ _
  · intro a b hab hba
    rw [hle] at hab hba
    exact (heq a b).mpr (le_antisymm hab hba)
  · intro a b c hab hbc
    rw [hle] at hab hbc ⊢
    exact hab.trans hbc

/-- The storage order of numbers is the order of their exact values with integers before floats on
equal values, the query-semantic order is the order of the exact values, and both are total
preorders. -/
theorem num_order_exact :
    (∀ a b : Num, a.cmp b = (compare a.line b.line).then (compare a.isFloat b.isFloat)) ∧
    (∀ a b : NumericOrd, a.cmp b = compare a.get.line b.get.line) ∧
    TotalPreorder cmp ∧ TotalPreorder NumericOrd.cmp := by
  refine ⟨cmp_eq_line, NumericOrd.cmp_eq_line, ?_, ?_⟩
  · exact TotalPreorder.of_keys line isFloat cmp_eq_line
  · refine TotalPreorder.of_keys (fun a => a.get.line) (fun _ => ()) ?_
    intro a b
    rw [NumericOrd.cmp_eq_line]
    exact Ordering.then_eq.symm

end Kyzo

import Kyzo.Lib.Float64

/-!
# The real value of a binary64 number

A finite number is a whole number of units of `2 ^ -1074` (`F64.units`), so that the order of the
values, whether a value is an integer and its truncation are questions about natural numbers.
`F64.toReal` is the real value itself.
-/

namespace Kyzo

namespace F64

variable (v : F64)

/-- The significand: the fraction field, with the hidden bit for a normal number. -/
def significand : ℕ := if v.expField = 0 then v.fracField else 2 ^ 52 + v.fracField

/-- The magnitude in units of `2 ^ -1074`. -/
def units : ℕ := v.significand * 2 ^ (v.expField - 1)

/-- The signed number of units. -/
def signedUnits : ℤ := if v.signBit then -v.units else v.units

/-- The value of a finite number. -/
noncomputable def toReal : ℝ :=
  (if v.signBit then -1 else 1) * v.significand * 2 ^ (max (v.expField : ℤ) 1 - 1075)

/-- The comparison `v < w`: false as soon as either side is NaN. -/
def lt (v w : F64) : Bool := !v.isNaN && !w.isNaN && decide (v.rank < w.rank)

/-- The test `v.fract() == 0.0` of a finite number: the difference of the number and its
truncation is exact, hence zero when the magnitude is whole. -/
def fractIsZero : Bool := decide (v.units % 2 ^ 1074 = 0)

/-- The cast `as i64`: towards zero, saturating, with NaN sent to zero. -/
def toInt64 : Int64 :=
  if v.isNaN then 0
  else
    let n : ℤ := if v.signBit then -(v.units / 2 ^ 1074 : ℕ) else (v.units / 2 ^ 1074 : ℕ)
    Int64.ofInt (max (-2 ^ 63) (min n (2 ^ 63 - 1)))

lemma toReal_eq : v.toReal = v.signedUnits / 2 ^ 1074 := by
  have hpow : (2 : ℝ) ^ (max (v.expField : ℤ) 1 - 1075) =
      2 ^ (v.expField - 1) / 2 ^ 1074 := by
    have hexp : max (v.expField : ℤ) 1 - 1075 = ((v.expField - 1 : ℕ) : ℤ) - (1074 : ℕ) := by
      omega
    rw [hexp, zpow_sub₀ (by norm_num), zpow_natCast, zpow_natCast]
  rw [toReal, hpow, signedUnits, units]
  split <;> push_cast <;> ring

variable {v w : F64}

lemma units_lt (h : v.bits.toNat % 2 ^ 63 < w.bits.toNat % 2 ^ 63) : v.units < w.units := by
  rw [toNat_mod, toNat_mod] at h
  have hv := v.fracField_lt
  have hw := w.fracField_lt
  have hle : v.expField ≤ w.expField := by omega
  unfold units significand
  rcases hle.eq_or_lt with heq | hlt
  · -- One binade: the fractions decide.
    rw [heq]
    refine Nat.mul_lt_mul_of_pos_right ?_ (by positivity)
    split <;> omega
  · have hw0 : w.expField ≠ 0 := by omega
    rw [if_neg hw0]
    by_cases hv0 : v.expField = 0
    · rw [hv0]
      calc v.fracField * 2 ^ (0 - 1) < 2 ^ 52 * 2 ^ (0 - 1) := by simpa using hv
        _ ≤ (2 ^ 52 + w.fracField) * 2 ^ (w.expField - 1) :=
          Nat.mul_le_mul (by omega) (Nat.pow_le_pow_right (by norm_num) (by omega))
    · rw [if_neg hv0]
      have hstep : v.expField - 1 + 1 ≤ w.expField - 1 := by omega
      calc (2 ^ 52 + v.fracField) * 2 ^ (v.expField - 1)
          < 2 ^ 53 * 2 ^ (v.expField - 1) :=
            Nat.mul_lt_mul_of_pos_right (by omega) (by positivity)
        _ = 2 ^ 52 * 2 ^ (v.expField - 1 + 1) := by ring
        _ ≤ (2 ^ 52 + w.fracField) * 2 ^ (w.expField - 1) :=
          Nat.mul_le_mul (by omega) (Nat.pow_le_pow_right (by norm_num) hstep)

lemma units_eq_zero {v : F64} : v.units = 0 ↔ v.bits.toNat % 2 ^ 63 = 0 := by
  rw [toNat_mod, units, significand]
  have hpos : 2 ^ (v.expField - 1) ≠ 0 := by positivity
  rw [Nat.mul_eq_zero]
  split <;> omega

lemma units_le_iff : v.units ≤ w.units ↔ v.bits.toNat % 2 ^ 63 ≤ w.bits.toNat % 2 ^ 63 := by
  constructor
  · intro h
    by_contra hlt
    exact absurd (units_lt (not_le.mp hlt)) (not_lt.mpr h)
  · intro h
    rcases h.eq_or_lt with heq | hlt
    · have hsame : v.expField * 2 ^ 52 + v.fracField = w.expField * 2 ^ 52 + w.fracField := by
        rw [← toNat_mod, ← toNat_mod, heq]
      have hv := v.fracField_lt
      have hw := w.fracField_lt
      have hexp : v.expField = w.expField := by omega
      have hfrac : v.fracField = w.fracField := by omega
      rw [units, units, significand, significand, hexp, hfrac]
    · exact (units_lt hlt).le

lemma rank_le_iff : v.rank ≤ w.rank ↔ v.signedUnits ≤ w.signedUnits := by
  have hvw := units_le_iff (v := v) (w := w)
  have hwv := units_le_iff (v := w) (w := v)
  have hv0 := units_eq_zero (v := v)
  unfold rank signedUnits
  split <;> split <;> omega

lemma rank_lt_iff : v.rank < w.rank ↔ v.signedUnits < w.signedUnits := by
  rw [← not_le, ← not_le, rank_le_iff]

end F64

end Kyzo

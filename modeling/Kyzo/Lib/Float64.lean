import Mathlib.Tactic

/-!
# Machine words and binary64 numbers as bit patterns

Counting zeros at both ends of an unsigned word, and the IEEE 754 binary64 numbers as their 64
bits.  Only the operations that read or move bits are here: classification (`isNaN`,
`isInfinite`, `isZero`, `isNeg`), sign manipulation (`abs`, `neg`) and the exponent and fraction
fields.  No rounding operation occurs, so nothing about floating-point arithmetic is assumed.
-/

namespace Kyzo

open Nat

/-! ## Zeros at the ends of a word -/

/-- The number of leading zero bits of the word `m` of width `w`. -/
def leadingZeros (w m : ℕ) : ℕ := if m = 0 then w else w - 1 - m.log2

/-- The number of trailing zero bits of the word `n` of width `w`. -/
def trailingZeros : ℕ → ℕ → ℕ
  | 0, _ => 0
  | w + 1, n => if n % 2 = 1 then 0 else trailingZeros w (n / 2) + 1

lemma sub_leadingZeros {w m : ℕ} (hm : m ≠ 0) (hw : m < 2 ^ w) :
    w - leadingZeros w m = m.log2 + 1 := by
  have hlog : m.log2 < w := (log2_lt hm).mpr hw
  rw [leadingZeros, if_neg hm]
  omega

/-- A word has at least `k` trailing zeros exactly when `2 ^ k` divides it. -/
theorem le_trailingZeros {w k n : ℕ} (hk : k ≤ w) : k ≤ trailingZeros w n ↔ 2 ^ k ∣ n := by
  induction w generalizing k n with
  | zero =>
    have hk0 : k = 0 := by omega
    subst hk0
    simp
  | succ w ih =>
    cases k with
    | zero => simp
    | succ k =>
      rw [trailingZeros]
      by_cases hodd : n % 2 = 1
      · have hnot : ¬ 2 ^ (k + 1) ∣ n := by
          intro hdvd
          have h2 : 2 ∣ n := dvd_trans (dvd_pow_self 2 (succ_ne_zero k)) hdvd
          omega
        simp [hodd, hnot]
      · have heven : n = 2 * (n / 2) := by omega
        have hiff : 2 ^ (k + 1) ∣ n ↔ 2 ^ k ∣ n / 2 := by
          rw [heven, pow_succ', Nat.mul_dvd_mul_iff_left (by norm_num : 0 < 2)]
          simp
        rw [if_neg hodd, hiff, ← ih (by omega : k ≤ w)]
        omega

/-- Shifting left until the top bit of an `n`-bit field is set. -/
theorem normalize_bounds {m n : ℕ} (hm : m ≠ 0) (hlen : m.log2 + 1 ≤ n) :
    2 ^ (n - 1) ≤ m * 2 ^ (n - (m.log2 + 1)) ∧ m * 2 ^ (n - (m.log2 + 1)) < 2 ^ n := by
  have hlow : 2 ^ m.log2 ≤ m := log2_self_le hm
  have hhigh : m < 2 ^ (m.log2 + 1) := lt_log2_self
  have hpos : 0 < 2 ^ (n - (m.log2 + 1)) := by positivity
  constructor
  · calc 2 ^ (n - 1) = 2 ^ m.log2 * 2 ^ (n - (m.log2 + 1)) := by
          rw [← pow_add]
          congr 1
          omega
      _ ≤ m * 2 ^ (n - (m.log2 + 1)) := mul_le_mul_right _ hlow
  · calc m * 2 ^ (n - (m.log2 + 1)) < 2 ^ (m.log2 + 1) * 2 ^ (n - (m.log2 + 1)) :=
          mul_lt_mul_of_pos_right hhigh hpos
      _ = 2 ^ n := by
          rw [← pow_add]
          congr 1
          omega

/-- Undoing the shift: a normalized field divisible by `2 ^ (n - e)` holds an `e`-bit number. -/
theorem log2_of_normalized {f n e : ℕ} (hlow : 2 ^ (n - 1) ≤ f) (hhigh : f < 2 ^ n)
    (he : 1 ≤ e) (hen : e ≤ n) : f / 2 ^ (n - e) ≠ 0 ∧ (f / 2 ^ (n - e)).log2 + 1 = e := by
  have hpos : 0 < 2 ^ (n - e) := by positivity
  have hlow' : 2 ^ (e - 1) ≤ f / 2 ^ (n - e) := by
    rw [le_div_iff_mul_le hpos, ← pow_add]
    have hexp : e - 1 + (n - e) = n - 1 := by omega
    rw [hexp]
    exact hlow
  have hhigh' : f / 2 ^ (n - e) < 2 ^ e := by
    rw [div_lt_iff_lt_mul hpos, ← pow_add]
    have hexp : e + (n - e) = n := by omega
    rw [hexp]
    exact hhigh
  have hpow : 0 < 2 ^ (e - 1) := by positivity
  have hne : f / 2 ^ (n - e) ≠ 0 := by omega
  have he' : e - 1 + 1 = e := by omega
  have hlog : (f / 2 ^ (n - e)).log2 = e - 1 := by
    rw [log2_eq_iff hne, he']
    exact ⟨hlow', hhigh'⟩
  exact ⟨hne, by omega⟩

/-! ## Binary64 numbers -/

/-- A binary64 number, held as its 64 bits: one sign bit, eleven exponent bits and fifty-two
fraction bits. -/
structure F64 where
  bits : UInt64
  deriving DecidableEq, Repr

namespace F64

/-- The number with the given bit pattern. -/
def ofNat (n : ℕ) : F64 := ⟨UInt64.ofNat n⟩

section

variable (v : F64)

/-- The biased exponent field. -/
def expField : ℕ := v.bits.toNat / 2 ^ 52 % 2 ^ 11

/-- The fraction field. -/
def fracField : ℕ := v.bits.toNat % 2 ^ 52

/-- The sign bit is set. -/
def signBit : Bool := decide (2 ^ 63 ≤ v.bits.toNat)

/-- Exponent all ones, fraction not zero. -/
def isNaN : Bool := decide (v.expField = 2047) && decide (v.fracField ≠ 0)

/-- Exponent all ones, fraction zero. -/
def isInfinite : Bool := decide (v.expField = 2047) && decide (v.fracField = 0)

/-- Either zero: the comparison `v == 0.0`. -/
def isZero : Bool := decide (v.bits.toNat % 2 ^ 63 = 0)

/-- Neither NaN nor infinite. -/
def isFinite : Bool := decide (v.expField ≠ 2047)

/-- The comparison `v < 0.0`: false for NaN and for both zeros. -/
def isNeg : Bool := v.signBit && !v.isNaN && !v.isZero

/-- The sign bit cleared. -/
def abs : F64 := ofNat (v.bits.toNat % 2 ^ 63)

/-- The sign bit flipped. -/
def neg : F64 := ofNat ((v.bits.toNat + 2 ^ 63) % 2 ^ 64)

end

/-- Positive zero. -/
def zero : F64 := ofNat 0

/-- Positive infinity. -/
def infinity : F64 := ofNat (2047 * 2 ^ 52)

/-- The bits of the number nearest to `m`, ties to the even fraction: fifty-three significant bits
are kept, and a fraction that overflows carries into the exponent field. -/
def roundBits (m : ℕ) : ℕ :=
  if m = 0 then 0
  else
    let e := m.log2
    let frac :=
      if e ≤ 52 then m * 2 ^ (52 - e)
      else
        let q := m / 2 ^ (e - 52)
        let r := m % 2 ^ (e - 52)
        let half := 2 ^ (e - 53)
        if half < r ∨ r = half ∧ q % 2 = 1 then q + 1 else q
    (1023 + e) * 2 ^ 52 + (frac - 2 ^ 52)

/-- The number nearest to an integer (`as f64`). -/
def ofInt (v : ℤ) : F64 :=
  if v < 0 then neg (ofNat (roundBits v.natAbs)) else ofNat (roundBits v.natAbs)

variable (v : F64)

/-- The place of a number that is not NaN on the number line, both zeros at one place. -/
def rank : ℤ :=
  if v.signBit then -(v.bits.toNat % 2 ^ 63 : ℕ) else (v.bits.toNat % 2 ^ 63 : ℕ)

/-- The comparison `v <= w`: false as soon as either side is NaN. -/
def le (v w : F64) : Bool := !v.isNaN && !w.isNaN && decide (v.rank ≤ w.rank)

lemma ext_toNat {v w : F64} (h : v.bits.toNat = w.bits.toNat) : v = w := by
  cases v
  cases w
  simpa [UInt64.toNat_inj] using h

/-- A bit pattern below `2 ^ 64` is read back. -/
theorem toNat_ofNat {n : ℕ} (h : n < 2 ^ 64) : (ofNat n).bits.toNat = n :=
  UInt64.toNat_ofNat_of_lt' h

lemma toNat_eq :
    v.bits.toNat = (if v.signBit then 2 ^ 63 else 0) + v.expField * 2 ^ 52 + v.fracField := by
  have hlt : v.bits.toNat < 2 ^ 64 := v.bits.toNat_lt
  unfold signBit expField fracField
  by_cases h : 2 ^ 63 ≤ v.bits.toNat
  · rw [if_pos (decide_eq_true h)]
    omega
  · rw [if_neg (by simpa using h)]
    omega

lemma toNat_mod : v.bits.toNat % 2 ^ 63 = v.expField * 2 ^ 52 + v.fracField := by
  unfold expField fracField
  omega

lemma fracField_lt : v.fracField < 2 ^ 52 := mod_lt _ (by norm_num)

end F64

end Kyzo

import Kyzo.Lib.ByteOrder
import Kyzo.Lib.Except
import Kyzo.Lib.Float64

/-!
# Numbers: the unified `i64 ∪ f64` domain and its order-preserving key

`Num` is an `i64` or an `f64` in normalized identity form (no `-0.0`, one NaN), ordered by exact
real value with `Int` before `Float` on equal reals.  `Num.encodeKey` writes the key
`[class][exponent 2B][fraction 9B][repr]`, complemented for negative numbers, and `Num.decodeKey`
reads it back, refusing every spelling that is not the key of a number.

The three results of this file are `Num.settles` (byte order of keys is `Num.cmp`, and keys are
prefix free), `Num.decodeKey_encodeKey` and `Num.encodeKey_of_decodeKey` (the decoder accepts
exactly the keys).
-/

namespace Kyzo

open List F64 Nat Settles

/-! ## The domain -/

/-- The canonical NaN bit pattern (`CANON_NAN_BITS`). -/
def canonNanBits : UInt64 := 0x7FF8000000000000

/-- The float identity law: no `-0.0`, and every NaN is the canonical one. -/
def F64.Canonical (v : F64) : Prop :=
  v.bits ≠ 0x8000000000000000 ∧ (v.isNaN = true → v.bits = canonNanBits)

instance (v : F64) : Decidable v.Canonical := inferInstanceAs (Decidable (_ ∧ _))

/-- The representation of a number (`Repr`). -/
inductive NumRepr where
  | int (v : Int64)
  | float (v : F64)
  deriving DecidableEq, Repr

/-- A represented number obeys the identity law. -/
def NumRepr.Lawful : NumRepr → Prop
  | .int _ => True
  | .float v => v.Canonical

/-- A number in normalized identity form. -/
structure Num where
  repr : NumRepr
  /-- The identity law. -/
  lawful : repr.Lawful

namespace Num

@[ext] lemma ext {a b : Num} (h : a.repr = b.repr) : a = b := by
  cases a
  cases b
  simpa using h

instance : DecidableEq Num := fun a b =>
  decidable_of_iff (a.repr = b.repr) ⟨ext, fun h => h ▸ rfl⟩

def int (v : Int64) : Num := ⟨.int v, trivial⟩

/-- The float law of `Num::float`: any NaN becomes the canonical NaN, either zero `+0.0`. -/
def normalizeFloat (v : F64) : F64 :=
  if v.isNaN then ⟨canonNanBits⟩ else if v.isZero then zero else v

lemma normalizeFloat_canonical (v : F64) : (normalizeFloat v).Canonical := by
  unfold normalizeFloat
  split
  · decide
  split
  · decide
  · rename_i hnan hzero
    refine ⟨?_, fun h => absurd h hnan⟩
    intro hbits
    apply hzero
    rw [isZero, hbits]
    decide

variable {v : F64}

lemma normalizeFloat_of_canonical (h : v.Canonical) : normalizeFloat v = v := by
  obtain ⟨hneg, hnan⟩ := h
  unfold normalizeFloat
  split
  · rename_i hn
    rw [← hnan hn]
  split
  · rename_i hz
    have hlt : v.bits.toNat < 2 ^ 64 := v.bits.toNat_lt
    have hne : v.bits.toNat ≠ 2 ^ 63 := fun h => hneg (UInt64.toNat_inj.mp h)
    have hmod : v.bits.toNat % 2 ^ 63 = 0 := by simpa [isZero] using hz
    apply ext_toNat
    have hzero : zero.bits.toNat = 0 := rfl
    omega
  · rfl

def float (v : F64) : Num := ⟨.float (normalizeFloat v), normalizeFloat_canonical v⟩

def asInt (n : Num) : Option Int64 :=
  match n.repr with
  | .int v => some v
  | .float _ => none

def asFloat (n : Num) : Option F64 :=
  match n.repr with
  | .float v => some v
  | .int _ => none

/-! ## The key -/

def classNeg : UInt8 := 0x01
def classZero : UInt8 := 0x02
def classPos : UInt8 := 0x03
def classNan : UInt8 := 0x04
def reprInt : UInt8 := 0x00
def reprFloat : UInt8 := 0x01
def expOffset : ℤ := 1080
def expInf : ℕ := 0xFFFF

/-- The magnitude of a nonzero number, in key form. -/
inductive Magnitude where
  /-- Biased exponent and 72-bit fraction. -/
  | finite (expKey frac72 : ℕ)
  | inf

/-- `Magnitude::finite`: the exponent is biased and truncated to sixteen bits. -/
def Magnitude.ofFinite (e : ℤ) (frac72 : ℕ) : Magnitude :=
  .finite ((e + expOffset) % 2 ^ 16).toNat frac72

/-- The exponent and fraction bytes of a magnitude: two and nine big-endian bytes. -/
def Magnitude.toBytes : Magnitude → Bytes
  | .inf => beBytes 2 expInf ++ replicate 9 0xFF
  | .finite expKey frac72 => beBytes 2 expKey ++ beBytes 9 frac72

def reprByte (n : Num) : UInt8 :=
  match n.repr with
  | .int _ => reprInt
  | .float _ => reprFloat

/-- `Num::sign_magnitude`: sign and normalized magnitude of a nonzero, non-NaN number. -/
def signMagnitude (n : Num) : Bool × Magnitude :=
  match n.repr with
  | .int v =>
    let m := v.toInt.natAbs
    let bl := 64 - leadingZeros 64 m
    (decide (v < 0), Magnitude.ofFinite bl (m <<< (72 - bl)))
  | .float v =>
    if v.isInfinite then (v.isNeg, .inf)
    else
      let bits := v.abs.bits.toNat
      let expf := bits >>> 52
      let frac52 := bits &&& (2 ^ 52 - 1)
      if expf > 0 then
        -- Normal: the hidden bit joins the fraction.
        let sig53 := 2 ^ 52 ||| frac52
        (v.isNeg, Magnitude.ofFinite (expf - 1023 + 1) (sig53 <<< 19))
      else
        -- Subnormal: `frac52 × 2^-1074`.
        let bl := 64 - leadingZeros 64 frac52
        (v.isNeg, Magnitude.ofFinite (bl - 1074) (frac52 <<< (72 - bl)))

/-- The key of a number that is neither zero nor NaN. -/
def encodeSigned (n : Num) : Bytes :=
  let neg := n.signMagnitude.1
  let body := n.signMagnitude.2.toBytes
  (if neg then classNeg else classPos) ::
    ((if neg then body.map (~~~·) else body) ++ [n.reprByte])

def encodeKey (n : Num) : Bytes :=
  match n.repr with
  | .int v => if v = 0 then [classZero, reprInt] else n.encodeSigned
  | .float v =>
    if v.bits = 0 then [classZero, reprFloat]
    else if v.isNaN then [classNan, reprFloat]
    else n.encodeSigned

/-- `Num::class` (`class` is a reserved word). -/
def classByte (n : Num) : UInt8 :=
  match n.repr with
  | .int v => if v = 0 then classZero else if v < 0 then classNeg else classPos
  | .float v =>
    if v.isNaN then classNan
    else if v.bits = 0 then classZero
    else if v.isNeg then classNeg
    else classPos

/-- Comparison of magnitudes: infinity above every finite one. -/
def Magnitude.cmp : Magnitude → Magnitude → Ordering
  | .inf, .inf => .eq
  | .inf, .finite _ _ => .gt
  | .finite _ _, .inf => .lt
  | .finite ea fa, .finite eb fb => (compare ea eb).then (compare fa fb)

/-- `impl Ord for Num`: the storage order. -/
def cmp (a b : Num) : Ordering :=
  if a.classByte ≠ b.classByte then compare a.classByte b.classByte
  else if a.classByte = classZero ∨ a.classByte = classNan then compare a.reprByte b.reprByte
  else
    let mag := a.signMagnitude.2.cmp b.signMagnitude.2
    let real := if a.signMagnitude.1 then mag.swap else mag
    real.then (compare a.reprByte b.reprByte)

/-! ## Reading a key -/

/-- `NumDecodeError`. -/
inductive DecodeError where
  | truncated
  | badClass
  | badRepr
  | badInfinity
  | denormalized
  | intRange
  | floatRange
  deriving DecidableEq, Repr

variable (neg : Bool)

def rebuildInt (e : ℤ) (frac72 : ℕ) : Except DecodeError Num :=
  if ¬ (1 ≤ e ∧ e ≤ 64) then .error .intRange
  else
    let shift := 72 - e.toNat
    if trailingZeros 128 frac72 < shift then .error .intRange
    else
      let m : ℕ := (frac72 >>> shift) % 2 ^ 64
      if neg then
        if m > 2 ^ 63 then .error .intRange else .ok (int (Int64.ofInt (-(m : ℤ))))
      else
        if m > 2 ^ 63 - 1 then .error .intRange else .ok (int (Int64.ofInt m))

def rebuildFloat (e : ℤ) (frac72 : ℕ) : Except DecodeError Num :=
  if e ≥ -1021 then
    if e > 1024 then .error .floatRange
    else if trailingZeros 128 frac72 < 19 then .error .floatRange
    else
      let sig53 : ℕ := (frac72 >>> 19) % 2 ^ 64
      let expf := (e - 1 + 1023).toNat
      let v := ofNat ((expf <<< 52) ||| (sig53 &&& (2 ^ 52 - 1)))
      .ok (float (if neg then v.neg else v))
  else
    let bl := e + 1074
    if ¬ (1 ≤ bl ∧ bl ≤ 52) then .error .floatRange
    else
      let shift := 72 - bl.toNat
      if trailingZeros 128 frac72 < shift then .error .floatRange
      else
        let v := ofNat ((frac72 >>> shift) % 2 ^ 64)
        .ok (float (if neg then v.neg else v))

/-- The number behind the exponent and fraction bytes `body` and the byte `repr` of a key of class
`NEG` or `POS`, once the complement of a negative key is undone. -/
def decodeBody (body : Bytes) (repr : UInt8) : Except DecodeError Num :=
  let exp := beNat (body.take 2)
  let frac72 := beNat (body.drop 2)
  if exp = expInf then
    if frac72 ≠ 2 ^ 72 - 1 ∨ repr ≠ reprFloat then .error .badInfinity
    else .ok (float (if neg then infinity.neg else infinity))
  else
    let e : ℤ := exp - expOffset
    if frac72 >>> 71 ≠ 1 then .error .denormalized
    else if repr = reprInt then rebuildInt neg e frac72
    else if repr = reprFloat then rebuildFloat neg e frac72
    else .error .badRepr

/-- The branch of `Num::decode_key` for the classes `NEG` and `POS`. -/
def decodeSigned (bytes : Bytes) : Except DecodeError (Num × ℕ) :=
  if bytes.length < 13 then .error .truncated
  else
    let raw := (bytes.drop 1).take 11
    let body := if neg then raw.map (~~~·) else raw
    (decodeBody neg body (bytes.getD 12 0)).map (·, 13)

/-- `Num::decode_key`: the value at the front of `bytes` and the number of bytes read. -/
def decodeKey (bytes : Bytes) : Except DecodeError (Num × ℕ) :=
  match bytes with
  | [] => .error .truncated
  | cls :: rest =>
    if cls = classZero then
      match rest with
      | [] => .error .truncated
      | r :: _ =>
        if r = reprInt then .ok (int 0, 2)
        else if r = reprFloat then .ok (float zero, 2)
        else .error .badRepr
    else if cls = classNan then
      match rest with
      | [] => .error .truncated
      | r :: _ => if r = reprFloat then .ok (float ⟨canonNanBits⟩, 2) else .error .badRepr
    else if cls = classNeg ∨ cls = classPos then decodeSigned (decide (cls = classNeg)) bytes
    else .error .badClass

/-! ## The magnitude of a signed number -/

/-- A number that is neither zero nor NaN: the numbers with a sign and a magnitude. -/
def Signed (n : Num) : Prop := n.classByte ≠ classZero ∧ n.classByte ≠ classNan

instance (n : Num) : Decidable n.Signed := inferInstanceAs (Decidable (_ ∧ _))

/-- What the key format promises of a magnitude: a biased exponent in its range and a fraction
with its leading bit at the top of the 72-bit field. -/
def Magnitude.Normal : Magnitude → Prop
  | .inf => True
  | .finite expKey frac72 => 7 ≤ expKey ∧ expKey ≤ 2104 ∧ 2 ^ 71 ≤ frac72 ∧ frac72 < 2 ^ 72

lemma natAbs_toInt {v : Int64} (hv : v ≠ 0) :
    v.toInt.natAbs ≠ 0 ∧ v.toInt.natAbs ≤ 2 ^ 63 ∧ v.toInt.natAbs.log2 < 64 := by
  have hlow := v.le_toInt
  have hhigh := v.toInt_lt
  have hne : v.toInt.natAbs ≠ 0 := by
    intro h
    exact hv (Int64.toInt_inj.mp (by simpa using h))
  exact ⟨hne, by omega, (log2_lt hne).mpr (by omega)⟩

lemma signMagnitude_int {v : Int64} (hv : v ≠ 0) :
    (int v).signMagnitude = (decide (v.toInt < 0), .finite (v.toInt.natAbs.log2 + 1 + 1080)
        (v.toInt.natAbs * 2 ^ (72 - (v.toInt.natAbs.log2 + 1)))) := by
  obtain ⟨hne, hlt, hlog⟩ := natAbs_toInt hv
  have hbl := sub_leadingZeros (w := 64) hne (by omega)
  have hsign : decide (v < 0) = decide (v.toInt < 0) := by
    simp [Int64.lt_iff_toInt_lt]
  have hkey : (((v.toInt.natAbs.log2 + 1 : ℕ) : ℤ) + 1080) % 2 ^ 16 =
      (v.toInt.natAbs.log2 + 1 + 1080 : ℕ) := by omega
  simp only [signMagnitude, int, hbl, Magnitude.ofFinite, expOffset, shiftLeft_eq, hsign,
    hkey, Int.toNat_natCast]

lemma abs_fields (v : F64) :
    v.abs.bits.toNat >>> 52 = v.expField ∧ v.abs.bits.toNat &&& (2 ^ 52 - 1) = v.fracField := by
  have hfrac := v.fracField_lt
  have habs : v.abs.bits.toNat = v.expField * 2 ^ 52 + v.fracField := by
    rw [F64.abs, F64.toNat_ofNat (by omega), F64.toNat_mod]
  rw [and_two_pow_sub_one_eq_mod]
  omega

variable {n : Num}

variable (hn : n.repr = .float v)
include hn

lemma signMagnitude_normal (hpos : 0 < v.expField) (hfin : v.expField < 2047) :
    n.signMagnitude = (v.isNeg, .finite (v.expField + 58) ((2 ^ 52 + v.fracField) * 2 ^ 19)) := by
  obtain ⟨hshift, hand⟩ := abs_fields v
  have hinf : v.isInfinite = false := by
    simp only [isInfinite, Bool.and_eq_false_imp, decide_eq_true_eq]
    omega
  have hfrac := v.fracField_lt
  have hor : 2 ^ 52 ||| v.fracField = 2 ^ 52 + v.fracField := by
    have h := two_pow_add_eq_or_of_lt hfrac 1
    simpa using h.symm
  simp only [signMagnitude, hn, hinf, hshift, hand, hor, if_pos hpos, Magnitude.ofFinite,
    expOffset, shiftLeft_eq]
  simp only [Bool.false_eq_true, if_false]
  congr 2
  omega

lemma signMagnitude_subnormal (hexp : v.expField = 0) (hfrac : v.fracField ≠ 0) :
    n.signMagnitude = (v.isNeg, .finite (v.fracField.log2 + 1 + 6)
      (v.fracField * 2 ^ (72 - (v.fracField.log2 + 1)))) := by
  obtain ⟨hshift, hand⟩ := abs_fields v
  have hinf : v.isInfinite = false := by
    simp [isInfinite, hexp]
  have hlt := v.fracField_lt
  have hbl := sub_leadingZeros (w := 64) hfrac (by omega)
  simp only [signMagnitude, hn, hinf, hshift, hand, hexp, lt_irrefl, if_false, hbl,
    Magnitude.ofFinite, expOffset, shiftLeft_eq]
  simp only [Bool.false_eq_true, if_false]
  congr 2
  omega

lemma signMagnitude_infinite (hinf : v.isInfinite = true) : n.signMagnitude = (v.isNeg, .inf) := by
  simp [signMagnitude, hn, hinf]

omit hn in
lemma Signed.cases (h : n.Signed) :
    (∃ v, n = int v ∧ v ≠ 0) ∨ ∃ v, n.repr = .float v ∧ v.isNaN = false ∧ v.bits ≠ 0 ∧
      (v.isInfinite = true ∨ (0 < v.expField ∧ v.expField < 2047) ∨
        (v.expField = 0 ∧ v.fracField ≠ 0)) := by
  obtain ⟨hzero, hnan⟩ := h
  obtain ⟨repr, lawful⟩ := n
  cases repr with
  | int v =>
    left
    refine ⟨v, rfl, ?_⟩
    rintro rfl
    exact hzero rfl
  | float v =>
    right
    have hn : v.isNaN = false := by
      by_contra hc
      simp [classByte, hc] at hnan
    have hb : v.bits ≠ 0 := by
      intro hc
      simp [classByte, hn, hc] at hzero
    refine ⟨v, rfl, hn, hb, ?_⟩
    have hne0 : v.bits.toNat ≠ 0 := fun hc => hb (UInt64.toNat_inj.mp hc)
    have hne63 : v.bits.toNat ≠ 2 ^ 63 := fun hc => lawful.1 (UInt64.toNat_inj.mp hc)
    have hmag := v.toNat_mod
    have hlt := v.bits.toNat_lt
    simp only [isNaN, Bool.and_eq_false_imp, decide_eq_true_eq, decide_eq_false_iff_not,
      not_not] at hn
    simp only [isInfinite, Bool.and_eq_true, decide_eq_true_eq]
    -- A zero exponent and fraction would be one of the two zeros.
    by_cases h0 : v.expField = 0
    · omega
    · by_cases h1 : v.expField = 2047
      · exact .inl ⟨h1, hn h1⟩
      · omega

omit hn in
lemma Signed.normal (h : n.Signed) : n.signMagnitude.2.Normal := by
  obtain ⟨v, rfl, hv⟩ | ⟨v, hn, -, -, hinf | ⟨hpos, hfin⟩ | ⟨hexp, hfrac⟩⟩ := h.cases
  · obtain ⟨hne, -, hlog⟩ := natAbs_toInt hv
    have hbounds := normalize_bounds (n := 72) hne (by omega)
    rw [signMagnitude_int hv]
    exact ⟨by omega, by omega, hbounds.1, hbounds.2⟩
  · rw [signMagnitude_infinite hn hinf]
    trivial
  · have hfrac := v.fracField_lt
    rw [signMagnitude_normal hn hpos hfin]
    exact ⟨by omega, by omega, by omega, by omega⟩
  · have hlog : v.fracField.log2 < 52 := (log2_lt hfrac).mpr v.fracField_lt
    have hbounds := normalize_bounds (n := 72) hfrac (by omega)
    rw [signMagnitude_subnormal hn hexp hfrac]
    exact ⟨by omega, by omega, hbounds.1, hbounds.2⟩

lemma signMagnitude_float_sign : n.signMagnitude.1 = v.isNeg := by
  simp only [signMagnitude, hn]
  split
  · rfl
  · split <;> rfl

omit hn in
lemma Signed.classByte_eq (h : n.Signed) :
    n.classByte = if n.signMagnitude.1 then classNeg else classPos := by
  obtain ⟨v, rfl, hv⟩ | ⟨v, hn, hnan, hbits, -⟩ := h.cases
  · rw [signMagnitude_int hv]
    simp [classByte, int, hv, Int64.lt_iff_toInt_lt]
  · rw [signMagnitude_float_sign hn]
    simp [classByte, hn, hnan, hbits]

omit hn in
lemma Signed.encodeKey_eq (h : n.Signed) : n.encodeKey = n.encodeSigned := by
  obtain ⟨v, rfl, hv⟩ | ⟨v, hn, hnan, hbits, -⟩ := h.cases
  · simp [encodeKey, int, hv]
  · simp [encodeKey, hn, hnan, hbits]

omit hn in
lemma signed_int {v : Int64} (hv : v ≠ 0) : (int v).Signed := by
  by_cases hneg : v < 0 <;>
    simp [Signed, classByte, int, hv, hneg, classNeg, classPos, classZero, classNan]

lemma signed_float (hnan : v.isNaN = false) (hbits : v.bits ≠ 0) : n.Signed := by
  cases hneg : v.isNeg <;>
    simp [Signed, classByte, hn, hnan, hbits, hneg, classNeg, classPos, classZero, classNan]

/-- A float of the domain is what `Num::float` makes of its bits. -/
theorem float_eq_of_repr : float v = n := by
  have hcanon : v.Canonical := by
    have h := n.lawful
    rwa [hn] at h
  apply ext
  rw [hn]
  simp [float, normalizeFloat_of_canonical hcanon]

omit hn

lemma not_signed_cases (h : ¬ n.Signed) :
    n = int 0 ∨ n = float zero ∨ n = float ⟨canonNanBits⟩ := by
  obtain ⟨repr, lawful⟩ := n
  cases repr with
  | int v =>
    left
    by_contra hv
    exact h (signed_int fun hc => hv (by rw [hc]; rfl))
  | float v =>
    right
    have hfloat := float_eq_of_repr (n := ⟨.float v, lawful⟩) rfl
    by_cases hnan : v.isNaN = true
    · right
      rw [← hfloat, ← lawful.2 hnan]
    · left
      by_cases hb : v.bits = 0
      · rw [← hfloat, ext_toNat (v := v) (w := zero) (by rw [hb]; rfl)]
      · exact absurd (signed_float rfl (by simpa using hnan) hb) h

lemma encodeKey_of_not_signed (h : ¬ n.Signed) : n.encodeKey = [n.classByte, n.reprByte] := by
  obtain rfl | rfl | rfl := not_signed_cases h <;> rfl

/-! ## Order -/

lemma Magnitude.length_toBytes (m : Magnitude) : m.toBytes.length = 11 := by
  cases m <;> simp [Magnitude.toBytes]

/-- The nine bytes `0xFF` are the largest 72-bit number. -/
theorem replicate_ff : replicate 9 (0xFF : UInt8) = beBytes 9 (2 ^ 72 - 1) := by
  decide

lemma Magnitude.settles {a b : Magnitude} (ha : a.Normal) (hb : b.Normal) :
    Settles (a.cmp b) a.toBytes b.toBytes := by
  have hfield : ∀ {ea fa eb fb : ℕ}, ea < 2 ^ 16 → eb < 2 ^ 16 → fa < 2 ^ 72 → fb < 2 ^ 72 →
      Settles ((compare ea eb).then (compare fa fb)) (beBytes 2 ea ++ beBytes 9 fa)
        (beBytes 2 eb ++ beBytes 9 fb) := by
    intro ea fa eb fb hea heb hfa hfb
    exact (Settles.beBytes (by omega) (by omega)).append (Settles.beBytes (by omega) (by omega))
  cases a with
  | inf =>
    cases b with
    | inf => exact refl _
    | finite eb fb =>
      obtain ⟨-, heb, -, hfb⟩ := hb
      have h := @hfield expInf (2 ^ 72 - 1) eb fb (by decide) (by omega) (by norm_num) hfb
      have hgt : compare expInf eb = .gt := by
        rw [Nat.compare_eq_gt, expInf]
        omega
      rw [hgt] at h
      simpa only [Magnitude.cmp, Magnitude.toBytes, replicate_ff, Ordering.gt_then] using h
  | finite ea fa =>
    obtain ⟨-, hea, -, hfa⟩ := ha
    cases b with
    | inf =>
      have h := @hfield ea fa expInf (2 ^ 72 - 1) (by omega) (by decide) hfa (by norm_num)
      have hlt : compare ea expInf = .lt := by
        rw [Nat.compare_eq_lt, expInf]
        omega
      rw [hlt] at h
      simpa only [Magnitude.cmp, Magnitude.toBytes, replicate_ff, Ordering.lt_then] using h
    | finite eb fb =>
      obtain ⟨-, heb, -, hfb⟩ := hb
      exact hfield (by omega) (by omega) hfa hfb

lemma encodeKey_eq_cons (n : Num) : ∃ rest, n.encodeKey = n.classByte :: rest := by
  by_cases h : n.Signed
  · rw [h.encodeKey_eq, h.classByte_eq]
    exact ⟨_, rfl⟩
  · exact ⟨_, encodeKey_of_not_signed h⟩

lemma sign_eq_of_classByte_eq {a b : Num} (ha : a.Signed) (hb : b.Signed)
    (h : a.classByte = b.classByte) : a.signMagnitude.1 = b.signMagnitude.1 := by
  rw [ha.classByte_eq, hb.classByte_eq] at h
  revert h
  cases a.signMagnitude.1 <;> cases b.signMagnitude.1 <;> decide

lemma settles (a b : Num) : Settles (a.cmp b) a.encodeKey b.encodeKey := by
  by_cases hclass : a.classByte = b.classByte
  · by_cases hs : a.Signed
    · have hs' : b.Signed := by rwa [Signed, ← hclass]
      -- Same sign, so the two bodies are complemented together or not at all.
      have hsign := sign_eq_of_classByte_eq hs hs' hclass
      have hmag := Magnitude.settles hs.normal hs'.normal
      have hlen : a.signMagnitude.2.toBytes.length = b.signMagnitude.2.toBytes.length := by
        rw [Magnitude.length_toBytes, Magnitude.length_toBytes]
      have hcmp : a.cmp b = (if a.signMagnitude.1 then
          (a.signMagnitude.2.cmp b.signMagnitude.2).swap else
          a.signMagnitude.2.cmp b.signMagnitude.2).then (compare a.reprByte b.reprByte) := by
        unfold cmp
        rw [if_neg (not_not.mpr hclass), if_neg (not_or.mpr hs)]
      simp only [hcmp, hs.encodeKey_eq, hs'.encodeKey_eq, encodeSigned, ← hsign]
      refine cons _ (append ?_ (byte _ _))
      cases a.signMagnitude.1 with
      | false => exact hmag
      | true => exact hmag.complement hlen
    · have hs' : ¬ b.Signed := by rwa [Signed, ← hclass]
      have hkind : a.classByte = classZero ∨ a.classByte = classNan := by
        by_contra hc
        exact hs (not_or.mp hc)
      have hcmp : a.cmp b = compare a.reprByte b.reprByte := by
        unfold cmp
        rw [if_neg (not_not.mpr hclass), if_pos hkind]
      rw [hcmp, encodeKey_of_not_signed hs, encodeKey_of_not_signed hs', hclass]
      exact (byte _ _).cons _
  · obtain ⟨resta, ha⟩ := encodeKey_eq_cons a
    obtain ⟨restb, hb⟩ := encodeKey_eq_cons b
    have hcmp : a.cmp b = compare a.classByte b.classByte := by
      unfold cmp
      rw [if_pos hclass]
    rw [hcmp, ha, hb]
    exact of_head_ne _ _ hclass

/-! ## Round trip -/

lemma shift_roundtrip (m k : ℕ) (hk : k ≤ 128) :
    ¬ trailingZeros 128 (m * 2 ^ k) < k ∧ (m * 2 ^ k) >>> k = m := by
  refine ⟨?_, ?_⟩
  · rw [not_lt, le_trailingZeros hk]
    exact Dvd.intro_left m rfl
  · rw [Nat.shiftRight_eq_div_pow, Nat.mul_div_cancel _ (by positivity)]

lemma toNat_signed {b : ℕ} (hb : b < 2 ^ 63) (neg : Bool) :
    (if neg then (ofNat b).neg else ofNat b).bits.toNat =
      (if neg then 2 ^ 63 else 0) + b := by
  have h0 : (ofNat b).bits.toNat = b := toNat_ofNat (by omega)
  cases neg with
  | false => simp [h0]
  | true =>
    have hlt : (b + 2 ^ 63) % 2 ^ 64 < 2 ^ 64 := mod_lt _ (by norm_num)
    simp only [if_true, neg, h0]
    rw [toNat_ofNat hlt]
    omega

lemma rebuildInt_signMagnitude {v : Int64} (hv : v ≠ 0) :
    rebuildInt (decide (v.toInt < 0)) ((v.toInt.natAbs.log2 + 1 + 1080 : ℕ) - expOffset)
      (v.toInt.natAbs * 2 ^ (72 - (v.toInt.natAbs.log2 + 1))) = .ok (int v) := by
  obtain ⟨-, hlt, hlog⟩ := natAbs_toInt hv
  have hhigh := v.toInt_lt
  have he : ((v.toInt.natAbs.log2 + 1 + 1080 : ℕ) : ℤ) - expOffset = v.toInt.natAbs.log2 + 1 := by
    simp [expOffset]
  have htoNat : ((v.toInt.natAbs.log2 : ℤ) + 1).toNat = v.toInt.natAbs.log2 + 1 := by omega
  obtain ⟨htz, hshift⟩ :=
    shift_roundtrip v.toInt.natAbs (72 - (v.toInt.natAbs.log2 + 1)) (by omega)
  have hmod : v.toInt.natAbs % 2 ^ 64 = v.toInt.natAbs := mod_eq_of_lt (by omega)
  have hrange : ¬ ¬ ((1 : ℤ) ≤ v.toInt.natAbs.log2 + 1 ∧ (v.toInt.natAbs.log2 : ℤ) + 1 ≤ 64) := by
    omega
  simp only [rebuildInt, he, htoNat, hshift, hmod, if_neg hrange, if_neg htz]
  by_cases hneg : v.toInt < 0
  · have habs : -((v.toInt.natAbs : ℕ) : ℤ) = v.toInt := by omega
    rw [if_pos (decide_eq_true hneg), if_neg (by omega), habs, Int64.ofInt_toInt]
  · have habs : ((v.toInt.natAbs : ℕ) : ℤ) = v.toInt := by omega
    rw [if_neg (by simpa using hneg), if_neg (by omega), habs, Int64.ofInt_toInt]

lemma signBit_eq_isNeg (hnan : v.isNaN = false)
    (hmag : v.bits.toNat % 2 ^ 63 ≠ 0) : v.signBit = v.isNeg := by
  have hzero : v.isZero = false := by simpa [isZero] using hmag
  simp [isNeg, hnan, hzero]

lemma rebuildFloat_normal (hn : n.repr = .float v) (hnan : v.isNaN = false)
    (hpos : 0 < v.expField) (hfin : v.expField < 2047) :
    rebuildFloat v.isNeg ((v.expField + 58 : ℕ) - expOffset) ((2 ^ 52 + v.fracField) * 2 ^ 19) =
      .ok n := by
  have hfrac := v.fracField_lt
  have he : ((v.expField + 58 : ℕ) : ℤ) - expOffset = v.expField - 1022 := by
    simp only [expOffset]
    omega
  obtain ⟨htz, hshift⟩ := shift_roundtrip (2 ^ 52 + v.fracField) 19 (by norm_num)
  have hexpf : ((v.expField : ℤ) - 1022 - 1 + 1023).toNat = v.expField := by omega
  have hsig : (2 ^ 52 + v.fracField) % 2 ^ 64 &&& (2 ^ 52 - 1) = v.fracField := by
    rw [and_two_pow_sub_one_eq_mod]
    omega
  have hbits : (v.expField <<< 52) ||| v.fracField = v.expField * 2 ^ 52 + v.fracField := by
    rw [← shiftLeft_add_eq_or_of_lt hfrac, shiftLeft_eq]
  simp only [rebuildFloat, he, hshift, hexpf, hsig, hbits, if_neg htz]
  rw [if_pos (by omega), if_neg (by omega)]
  congr 1
  rw [← float_eq_of_repr hn]
  congr 1
  apply ext_toNat
  rw [toNat_signed (by omega), v.toNat_eq, signBit_eq_isNeg hnan (by rw [v.toNat_mod]; omega)]
  omega

lemma rebuildFloat_subnormal (hn : n.repr = .float v)
    (hnan : v.isNaN = false) (hexp : v.expField = 0) (hfrac : v.fracField ≠ 0) :
    rebuildFloat v.isNeg ((v.fracField.log2 + 1 + 6 : ℕ) - expOffset)
      (v.fracField * 2 ^ (72 - (v.fracField.log2 + 1))) = .ok n := by
  have hlt := v.fracField_lt
  have hlog : v.fracField.log2 < 52 := (log2_lt hfrac).mpr hlt
  have he : ((v.fracField.log2 + 1 + 6 : ℕ) : ℤ) - expOffset = v.fracField.log2 - 1073 := by
    simp only [expOffset]
    omega
  have hbl : (v.fracField.log2 : ℤ) - 1073 + 1074 = v.fracField.log2 + 1 := by omega
  have htoNat : ((v.fracField.log2 : ℤ) + 1).toNat = v.fracField.log2 + 1 := by omega
  obtain ⟨htz, hshift⟩ := shift_roundtrip v.fracField (72 - (v.fracField.log2 + 1)) (by omega)
  have hmod : v.fracField % 2 ^ 64 = v.fracField := mod_eq_of_lt (by omega)
  simp only [rebuildFloat, he, hbl, htoNat, hshift, hmod, if_neg htz]
  rw [if_neg (by omega), if_neg (by omega)]
  congr 1
  rw [← float_eq_of_repr hn]
  congr 1
  apply ext_toNat
  have hmag : v.bits.toNat % 2 ^ 63 ≠ 0 := by
    rw [v.toNat_mod]
    omega
  rw [toNat_signed (by omega), v.toNat_eq, signBit_eq_isNeg hnan hmag]
  omega

lemma decodeBody_toBytes (h : n.Signed) :
    decodeBody n.signMagnitude.1 n.signMagnitude.2.toBytes n.reprByte = .ok n := by
  have hnormal := h.normal
  -- A finite magnitude reaches the rebuilding branches with its own exponent and fraction.
  have hfinite : ∀ ek f : ℕ, n.signMagnitude.2 = .finite ek f →
      decodeBody n.signMagnitude.1 n.signMagnitude.2.toBytes n.reprByte =
        if n.reprByte = reprInt then rebuildInt n.signMagnitude.1 (ek - expOffset) f
        else if n.reprByte = reprFloat then rebuildFloat n.signMagnitude.1 (ek - expOffset) f
        else .error .badRepr := by
    intro ek f hmag
    rw [hmag] at hnormal
    obtain ⟨-, hek, hflow, hfhigh⟩ := hnormal
    have hexp : beNat ((Magnitude.finite ek f).toBytes.take 2) = ek := by
      rw [Magnitude.toBytes, take_left' (length_beBytes 2 ek), beNat_beBytes]
      omega
    have hfrac : beNat ((Magnitude.finite ek f).toBytes.drop 2) = f := by
      rw [Magnitude.toBytes, drop_left' (length_beBytes 2 ek), beNat_beBytes]
      omega
    have htop : ¬ f >>> 71 ≠ 1 := by
      omega
    simp only [decodeBody, hmag, hexp, hfrac, if_neg htop]
    rw [if_neg (by rw [expInf]; omega)]
  obtain ⟨v, rfl, hv⟩ | ⟨v, hn, hnan, -, hcases⟩ := h.cases
  · have hsm := signMagnitude_int hv
    have hrepr : (int v).reprByte = reprInt := rfl
    rw [hfinite _ _ (by rw [hsm]), hsm, hrepr, if_pos rfl]
    exact rebuildInt_signMagnitude hv
  have hrepr : n.reprByte = reprFloat := by simp [reprByte, hn]
  obtain hinf | ⟨hpos, hfin⟩ | ⟨hexp, hfrac⟩ := hcases
  · have hsm := signMagnitude_infinite hn hinf
    have hbytes : beNat (Magnitude.inf.toBytes.take 2) = expInf ∧
        beNat (Magnitude.inf.toBytes.drop 2) = 2 ^ 72 - 1 := by decide
    simp only [decodeBody, hsm, hbytes.1, hbytes.2, hrepr, if_true]
    rw [if_neg (by simp), ← float_eq_of_repr hn]
    congr 2
    simp only [isInfinite, Bool.and_eq_true, decide_eq_true_eq] at hinf
    apply ext_toNat
    rw [infinity, toNat_signed (by norm_num), v.toNat_eq,
      signBit_eq_isNeg hnan (by rw [v.toNat_mod]; omega)]
    omega
  · have hsm := signMagnitude_normal hn hpos hfin
    rw [hfinite _ _ (by rw [hsm]), hsm, hrepr, if_neg (by decide), if_pos rfl]
    exact rebuildFloat_normal hn hnan hpos hfin
  · have hsm := signMagnitude_subnormal hn hexp hfrac
    rw [hfinite _ _ (by rw [hsm]), hsm, hrepr]
    exact rebuildFloat_subnormal hn hnan hexp hfrac

/-- Complementing twice or not at all. -/
theorem uncomplement (bs : Bytes) : (if neg then (if neg then bs.map (~~~·) else bs).map (~~~·)
      else (if neg then bs.map (~~~·) else bs)) = bs := by
  cases neg <;> simp [Function.comp_def]

/-- The signed branch of the decoder on a key laid out as `class`, eleven body bytes and `repr`. -/
theorem decodeSigned_append (cls r : UInt8) (body s : Bytes) (hlen : body.length = 11) :
    decodeSigned neg (cls :: ((if neg then body.map (~~~·) else body) ++ [r]) ++ s) =
      (decodeBody neg body r).map (·, 13) := by
  have hraw : (if neg then body.map (~~~·) else body).length = 11 := by
    cases neg <;> simp [hlen]
  have hundo := uncomplement neg body
  generalize (if neg then body.map (~~~·) else body) = raw at hraw hundo ⊢
  have htake : ((cls :: (raw ++ [r]) ++ s).drop 1).take 11 = raw := by
    rw [cons_append, drop_one, tail_cons, append_assoc, take_left' hraw]
  have hget : (cls :: (raw ++ [r]) ++ s).getD 12 0 = r := by
    simp [getD_eq_getElem?_getD, hraw]
  have hlong : ¬ (cls :: (raw ++ [r]) ++ s).length < 13 := by
    simp only [length_append, length_cons, hraw]
    omega
  simp only [decodeSigned, if_neg hlong, htake, hget, hundo]

/-- **Round trip of number keys.**  Decoding a key, whatever follows it, gives the number back and
the length of the key. -/
theorem decodeKey_encodeKey (n : Num) (s : Bytes) :
    decodeKey (n.encodeKey ++ s) = .ok (n, n.encodeKey.length) := by
  by_cases h : n.Signed
  · have hlen : n.encodeKey.length = 13 := by
      rw [h.encodeKey_eq, encodeSigned]
      cases n.signMagnitude.1 <;> simp [Magnitude.length_toBytes]
    have hdec := decodeSigned_append n.signMagnitude.1
      (if n.signMagnitude.1 then classNeg else classPos) n.reprByte _ s
      n.signMagnitude.2.length_toBytes
    rw [decodeBody_toBytes h] at hdec
    rw [hlen, h.encodeKey_eq]
    cases hneg : n.signMagnitude.1 <;> rw [hneg] at hdec <;>
      simpa [encodeSigned, hneg, decodeKey, classNeg, classPos, classZero, classNan, Except.map]
        using hdec
  · obtain rfl | rfl | rfl := not_signed_cases h <;> rfl

/-! ## Only keys are accepted -/

variable {f k : ℕ}

lemma shift_restore (hk : k ≤ 128) (h : ¬ trailingZeros 128 f < k) : f >>> k * 2 ^ k = f := by
  rw [not_lt, le_trailingZeros hk] at h
  rw [Nat.shiftRight_eq_div_pow, Nat.div_mul_cancel h]

variable {neg : Bool}

/-- What `Num::rebuild_int` accepts is the magnitude of the integer it returns. -/
theorem signMagnitude_of_rebuildInt {e : ℤ} (hlow : 2 ^ 71 ≤ f) (hhigh : f < 2 ^ 72)
    (h : rebuildInt neg e f = .ok n) : n.Signed ∧ n.reprByte = reprInt ∧
      n.signMagnitude = (neg, .finite (e + expOffset).toNat f) := by
  unfold rebuildInt at h
  split at h
  · cases h
  obtain ⟨k, rfl⟩ : ∃ k : ℕ, e = k := ⟨e.toNat, by omega⟩
  have hk : 1 ≤ k ∧ k ≤ 64 := by omega
  simp only [Int.toNat_natCast] at h
  split at h
  · cases h
  rename_i htz
  have hrestore := shift_restore (by omega) htz
  obtain ⟨hne, hlog⟩ := log2_of_normalized hlow hhigh hk.1 (by omega : k ≤ 72)
  rw [← shiftRight_eq_div_pow] at hne hlog
  -- `m` is the integer's magnitude; the two signs differ in the largest one admitted.
  have hm : ∀ v : Int64, v.toInt.natAbs = f >>> (72 - k) → decide (v.toInt < 0) = neg →
      (int v).Signed ∧ (int v).reprByte = reprInt ∧
        (int v).signMagnitude = (neg, .finite ((k : ℤ) + expOffset).toNat f) := by
    intro v habs hneg
    have hv : v ≠ 0 := by
      rintro rfl
      exact hne habs.symm
    refine ⟨signed_int hv, rfl, ?_⟩
    have hkey : ((k : ℤ) + expOffset).toNat = k + 1080 := by
      simp only [expOffset]
      omega
    rw [signMagnitude_int hv, habs, hlog, hneg, hrestore, hkey]
  have hlt64 : f >>> (72 - k) % 2 ^ 64 = f >>> (72 - k) := by
    apply mod_eq_of_lt
    calc f >>> (72 - k) < 2 ^ ((f >>> (72 - k)).log2 + 1) := lt_log2_self
      _ ≤ 2 ^ 64 := Nat.pow_le_pow_right (by norm_num) (by omega)
  rw [hlt64] at h
  cases neg with
  | true =>
    simp only [if_true] at h
    split at h
    · cases h
    cases h
    have htoInt : (Int64.ofInt (-((f >>> (72 - k) : ℕ) : ℤ))).toInt = -((f >>> (72 - k) : ℕ) : ℤ) :=
      Int64.toInt_ofInt_of_le (by omega) (by omega)
    exact hm _ (by omega) (by exact decide_eq_true (by omega))
  | false =>
    simp only [Bool.false_eq_true, if_false] at h
    split at h
    · cases h
    cases h
    have htoInt : (Int64.ofInt ((f >>> (72 - k) : ℕ) : ℤ)).toInt = ((f >>> (72 - k) : ℕ) : ℤ) :=
      Int64.toInt_ofInt_of_le (by omega) (by omega)
    exact hm _ (by omega) (by exact decide_eq_false (by omega))

lemma fields_signed {b : ℕ} (hpos : b ≠ 0) (hfin : b / 2 ^ 52 < 2047) (neg : Bool) :
    let v := if neg then (ofNat b).neg else ofNat b
    (float v).repr = .float v ∧ v.isNaN = false ∧ v.bits ≠ 0 ∧ v.isNeg = neg ∧
      v.expField = b / 2 ^ 52 ∧ v.fracField = b % 2 ^ 52 := by
  have hb : b < 2 ^ 63 := by omega
  have hnat := toNat_signed hb neg
  generalize (if neg then (ofNat b).neg else ofNat b) = v at hnat
  intro v'
  obtain ⟨hexp, hfrac, hmag⟩ : v.expField = b / 2 ^ 52 ∧ v.fracField = b % 2 ^ 52 ∧
      v.bits.toNat % 2 ^ 63 = b := by
    unfold expField fracField
    cases neg <;> simp only [if_true, if_false, Bool.false_eq_true] at hnat <;> omega
  have hnan : v.isNaN = false := by
    have hne : v.expField ≠ 2047 := by omega
    simp [isNaN, hne]
  have hbits : v.bits ≠ 0 := by
    intro hc
    rw [hc] at hmag
    exact hpos hmag.symm
  have hcanon : v.Canonical := by
    refine ⟨fun hc => ?_, fun hc => ?_⟩
    · rw [hc] at hmag
      exact hpos hmag.symm
    · rw [hnan] at hc
      cases hc
  have hneg : v.isNeg = neg := by
    rw [← signBit_eq_isNeg hnan (by omega), signBit]
    cases neg <;> simp only [if_true, if_false, Bool.false_eq_true] at hnat <;>
      simp only [decide_eq_true_eq, decide_eq_false_iff_not] <;> omega
  exact ⟨by simp [v', float, normalizeFloat_of_canonical hcanon], hnan, hbits, hneg, hexp, hfrac⟩

/-- What `Num::rebuild_float` accepts is the magnitude of the float it returns. -/
theorem signMagnitude_of_rebuildFloat {e : ℤ} (hlow : 2 ^ 71 ≤ f) (hhigh : f < 2 ^ 72)
    (h : rebuildFloat neg e f = .ok n) : n.Signed ∧ n.reprByte = reprFloat ∧
      n.signMagnitude = (neg, .finite (e + expOffset).toNat f) := by
  unfold rebuildFloat at h
  split at h
  · -- Normal floats.
    rename_i hge
    split at h
    · cases h
    rename_i hle
    split at h
    · cases h
    rename_i htz
    have hrestore := shift_restore (by norm_num) htz
    have hdiv : f >>> 19 = f / 2 ^ 19 := shiftRight_eq_div_pow f 19
    obtain ⟨F, hF, hFlt⟩ : ∃ F, f >>> 19 = 2 ^ 52 + F ∧ F < 2 ^ 52 :=
      ⟨f >>> 19 - 2 ^ 52, by omega, by omega⟩
    obtain ⟨E, hE⟩ : ∃ E : ℕ, e + 1022 = E := ⟨(e + 1022).toNat, by omega⟩
    have hsig : (2 ^ 52 + F) % 2 ^ 64 &&& (2 ^ 52 - 1) = F := by
      rw [and_two_pow_sub_one_eq_mod]
      omega
    have hexpf : (e - 1 + 1023).toNat = E := by omega
    have hbits : (E <<< 52) ||| F = E * 2 ^ 52 + F := by
      rw [← shiftLeft_add_eq_or_of_lt hFlt, shiftLeft_eq]
    rw [hF] at hrestore
    simp only [hF, hsig, hexpf, hbits] at h
    have hdivE : (E * 2 ^ 52 + F) / 2 ^ 52 = E := by omega
    have hmodF : (E * 2 ^ 52 + F) % 2 ^ 52 = F := by omega
    obtain ⟨hrepr, hnan, hb, hneg, hexp, hfrac⟩ :=
      fields_signed (b := E * 2 ^ 52 + F) (by omega) (by omega) neg
    rw [hdivE] at hexp
    rw [hmodF] at hfrac
    cases h
    refine ⟨signed_float hrepr hnan hb, rfl, ?_⟩
    have hkey : (e + expOffset).toNat = E + 58 := by
      simp only [expOffset]
      omega
    rw [signMagnitude_normal hrepr (by omega) (by omega), hneg, hexp, hfrac, hrestore, hkey]
  · -- Subnormal floats.
    obtain ⟨k, hk⟩ : ∃ k : ℕ, e + 1074 = k ∨ e + 1074 < 0 := ⟨(e + 1074).toNat, by omega⟩
    simp only at h
    split at h
    · cases h
    have hk' : e + 1074 = k := by omega
    simp only [hk', Int.toNat_natCast] at h
    split at h
    · cases h
    rename_i htz
    have hrestore := shift_restore (by omega) htz
    obtain ⟨hne, hlog⟩ := log2_of_normalized hlow hhigh (by omega : 1 ≤ k) (by omega : k ≤ 72)
    rw [← shiftRight_eq_div_pow] at hne hlog
    have hlt : f >>> (72 - k) < 2 ^ 52 := by
      calc f >>> (72 - k) < 2 ^ ((f >>> (72 - k)).log2 + 1) := lt_log2_self
        _ ≤ 2 ^ 52 := Nat.pow_le_pow_right (by norm_num) (by omega)
    have hmod : f >>> (72 - k) % 2 ^ 64 = f >>> (72 - k) := mod_eq_of_lt (by omega)
    rw [hmod] at h
    obtain ⟨hrepr, hnan, hb, hneg, hexp, hfrac⟩ :=
      fields_signed hne (by omega) neg
    rw [div_eq_of_lt hlt] at hexp
    rw [mod_eq_of_lt hlt] at hfrac
    cases h
    refine ⟨signed_float hrepr hnan hb, rfl, ?_⟩
    have hkey : (e + expOffset).toNat = k + 6 := by
      simp only [expOffset]
      omega
    rw [signMagnitude_subnormal hrepr hexp (by rw [hfrac]; exact hne), hneg, hfrac, hlog, hrestore,
      hkey]

lemma toBytes_of_decodeBody {body : Bytes} {r : UInt8}
    (hlen : body.length = 11) (h : decodeBody neg body r = .ok n) :
    n.Signed ∧ n.reprByte = r ∧ n.signMagnitude.1 = neg ∧ n.signMagnitude.2.toBytes = body := by
  have hlen2 : (body.take 2).length = 2 := by simp [hlen]
  have hlen9 : (body.drop 2).length = 9 := by simp [hlen]
  have hexpb : beBytes 2 (beNat (body.take 2)) = body.take 2 := by
    have h := beBytes_beNat (body.take 2)
    rwa [hlen2] at h
  have hfracb : beBytes 9 (beNat (body.drop 2)) = body.drop 2 := by
    have h := beBytes_beNat (body.drop 2)
    rwa [hlen9] at h
  have hfrac72 : beNat (body.drop 2) < 2 ^ 72 := by
    have h := beNat_lt (body.drop 2)
    rw [hlen9] at h
    exact lt_of_lt_of_le h (by norm_num)
  simp only [decodeBody] at h
  split at h
  · -- The infinity sentinel.
    rename_i hinf
    split at h
    · cases h
    rename_i hok
    push Not at hok
    cases h
    have hsplit : Magnitude.inf.toBytes = body := by
      have hcat := take_append_drop 2 body
      rw [← hcat, ← hexpb, ← hfracb, hinf, hok.1]
      decide
    cases neg <;> exact ⟨by decide, hok.2.symm, by decide, hsplit⟩
  · split at h
    · cases h
    have htop : 2 ^ 71 ≤ beNat (body.drop 2) := by
      omega
    have hbody : ∀ f e : ℕ, f = beNat (body.drop 2) → e = beNat (body.take 2) →
        (Magnitude.finite ((e : ℤ) - expOffset + expOffset).toNat f).toBytes = body := by
      rintro f e rfl rfl
      rw [sub_add_cancel, Int.toNat_natCast, Magnitude.toBytes, hexpb, hfracb, take_append_drop]
    split at h
    · rename_i hr
      obtain ⟨hs, hrepr, hsm⟩ := signMagnitude_of_rebuildInt htop hfrac72 h
      exact ⟨hs, by rw [hrepr, hr], by rw [hsm], by rw [hsm]; exact hbody _ _ rfl rfl⟩
    split at h
    · rename_i hr
      obtain ⟨hs, hrepr, hsm⟩ := signMagnitude_of_rebuildFloat htop hfrac72 h
      exact ⟨hs, by rw [hrepr, hr], by rw [hsm], by rw [hsm]; exact hbody _ _ rfl rfl⟩
    · cases h

lemma decodeSigned_ok {bytes : Bytes} (h : decodeSigned neg bytes = .ok (n, k)) :
    ∃ cls r body s, bytes = cls :: ((if neg then body.map (~~~·) else body) ++ [r]) ++ s ∧
      body.length = 11 ∧ k = 13 ∧ decodeBody neg body r = .ok n := by
  unfold decodeSigned at h
  split at h
  · cases h
  rename_i hlen
  obtain ⟨cls, rest, rfl⟩ : ∃ cls rest, bytes = cls :: rest := by
    cases bytes with
    | nil => simp at hlen
    | cons b bs => exact ⟨b, bs, rfl⟩
  have hrest : 12 ≤ rest.length := by
    simp only [length_cons] at hlen
    omega
  have hget : (cls :: rest).getD 12 0 = rest[11] := by
    simp [getD_eq_getElem?_getD, getElem?_eq_getElem (by omega : 11 < rest.length)]
  have hraw : (rest.take 11).length = 11 := by
    rw [length_take]
    omega
  have hsplit : rest = rest.take 11 ++ [rest[11]] ++ rest.drop 12 := by
    rw [append_assoc, singleton_append, getElem_cons_drop, take_append_drop]
  simp only [drop_one, tail_cons, hget] at h
  obtain ⟨m, hbody, hm⟩ := map_eq_ok.mp h
  cases hm
  refine ⟨cls, rest[11], _, rest.drop 12, ?_, ?_, rfl, hbody⟩
  · rw [uncomplement, cons_append, ← hsplit]
  · cases neg <;> simpa using hraw

/-- **Only keys are accepted.**  Whatever bytes `Num::decode_key` accepts begin with the key of the
number it returns, and the reported length is the key's. -/
theorem encodeKey_of_decodeKey {bytes : Bytes} (h : decodeKey bytes = .ok (n, k)) :
    ∃ s, bytes = n.encodeKey ++ s ∧ k = n.encodeKey.length := by
  have hsigned : ∀ neg : Bool, ∀ cls rest,
      decodeSigned neg (cls :: rest) = .ok (n, k) → cls = (if neg then classNeg else classPos) →
      ∃ s, cls :: rest = n.encodeKey ++ s ∧ k = n.encodeKey.length := by
    intro neg cls rest hdec hcls
    obtain ⟨cls', r, body, s, hbytes, hlen, rfl, hbody⟩ := decodeSigned_ok hdec
    obtain ⟨hs, hrepr, hneg, hmag⟩ := toBytes_of_decodeBody hlen hbody
    have hcls' : cls' = cls := by
      exact (cons.inj hbytes).1.symm
    have hkey : n.encodeKey =
        cls :: ((if neg then body.map (~~~·) else body) ++ [r]) := by
      rw [hs.encodeKey_eq, encodeSigned, hneg, hmag, hrepr, hcls]
    refine ⟨s, ?_, ?_⟩
    · rw [hbytes, hkey, hcls']
    · rw [hkey]
      cases neg <;> simp [hlen]
  cases bytes with
  | nil => cases h
  | cons cls rest =>
    simp only [decodeKey] at h
    split at h
    · rename_i hcls
      subst hcls
      cases rest with
      | nil => cases h
      | cons r rest =>
        simp only at h
        split at h
        · rename_i hr
          cases h
          exact ⟨rest, by rw [hr]; rfl, rfl⟩
        split at h
        · rename_i hr
          cases h
          exact ⟨rest, by rw [hr]; rfl, rfl⟩
        · cases h
    split at h
    · rename_i hcls
      subst hcls
      cases rest with
      | nil => cases h
      | cons r rest =>
        simp only at h
        split at h
        · rename_i hr
          cases h
          exact ⟨rest, by rw [hr]; rfl, rfl⟩
        · cases h
    split at h
    · rename_i hcls
      rcases hcls with rfl | rfl
      · exact hsigned true _ _ h rfl
      · exact hsigned false _ _ h rfl
    · cases h

end Num

end Kyzo

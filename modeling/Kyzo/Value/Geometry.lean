import Kyzo.Lib.ByteOrder
import Kyzo.Lib.Hilbert

/-!
# Geometry: points on the fixed-point cell grid, ordered along the Hilbert curve

A geometry is a pair of 32-bit cells.  Its order and its canonical payload are the 64-bit index of
the pair along the Hilbert curve, computed by the two loops `hilbertEncode` and `hilbertDecode`.
Both loops are shown to compute the curve of order 32 of `Kyzo.Hilbert`, hence to be mutually
inverse, to map aligned blocks onto index ranges and to step to a neighbouring cell.
-/

namespace Kyzo

open Hilbert Nat UInt32

/-- A geometry point (`Geometry`): the cells of its two axes. -/
structure Geometry where
  /-- The latitude cell. -/
  lat : UInt32
  /-- The longitude cell. -/
  lon : UInt32

/-- Wrapping subtraction of `u32`. -/
def wrappingSub32 (a b : ℕ) : ℕ := (a + 2 ^ 32 - b) % 2 ^ 32

/-- `hilbert_rot`: the rotation and reflection of one level; `n = none` is the full grid, where the
reflection is the bitwise complement. -/
def hilbertRot (n : Option ℕ) (x y rx ry : ℕ) : ℕ × ℕ :=
  if ry = 0 then
    if rx = 1 then
      match n with
      | none => (2 ^ 32 - 1 - y, 2 ^ 32 - 1 - x)
      | some side =>
        (wrappingSub32 (wrappingSub32 side 1) y, wrappingSub32 (wrappingSub32 side 1) x)
    else (y, x)
  else (x, y)

/-- The loop of `hilbert_encode` from `s = 2 ^ (k - 1)` down to `s = 1`. -/
def hilbertEncodeLoop : ℕ → ℕ → ℕ → ℕ → ℕ
  | 0, _, _, d => d
  | k + 1, lat, lon, d =>
    let s := 2 ^ k
    let rx := if lat &&& s ≠ 0 then 1 else 0
    let ry := if lon &&& s ≠ 0 then 1 else 0
    let r := hilbertRot none lat lon rx ry
    hilbertEncodeLoop k r.1 r.2 (d + s * s * ((3 * rx) ^^^ ry))

def hilbertEncode (lat lon : UInt32) : ℕ := hilbertEncodeLoop 32 lat.toNat lon.toNat 0

/-- The loop of `hilbert_decode`: `steps` more levels, the next one of side `s = 2 ^ j`. -/
def hilbertDecodeLoop : ℕ → ℕ → ℕ → ℕ → ℕ → ℕ × ℕ
  | 0, _, _, lat, lon => (lat, lon)
  | steps + 1, j, d, lat, lon =>
    let s := 2 ^ j
    let rx := (d >>> 1) &&& 1
    let ry := (d ^^^ rx) &&& 1
    let r := hilbertRot (some s) lat lon rx ry
    hilbertDecodeLoop steps (j + 1) (d >>> 2)
      ((r.1 + s * rx) % 2 ^ 32) ((r.2 + s * ry) % 2 ^ 32)

def hilbertDecode (d : ℕ) : UInt32 × UInt32 :=
  let r := hilbertDecodeLoop 32 0 d 0 0
  (ofNat r.1, ofNat r.2)

namespace Geometry

def curveIndex (g : Geometry) : ℕ := hilbertEncode g.lat g.lon

def fromCurveKey (code : ℕ) : Geometry := ⟨(hilbertDecode code).1, (hilbertDecode code).2⟩

def curveKeyBytes (g : Geometry) : Bytes := beBytes 8 g.curveIndex

/-- `impl Ord for Geometry`. -/
def cmp (a b : Geometry) : Ordering := compare a.curveIndex b.curveIndex

end Geometry

/-! ## The two loops follow the curve -/

lemma testBit_ite (x k : ℕ) : (if x &&& 2 ^ k ≠ 0 then 1 else 0) = x / 2 ^ k % 2 := by
  rw [and_two_pow]
  cases h : x.testBit k with
  | true =>
    rw [testBit_eq_decide_div_mod_eq, decide_eq_true_eq] at h
    simp [h]
  | false =>
    rw [testBit_eq_decide_div_mod_eq, decide_eq_false_iff_not] at h
    have h0 : x / 2 ^ k % 2 = 0 := by omega
    simp [h0]

lemma complement_mod {x k : ℕ} (hx : x < 2 ^ 32) (hk : k ≤ 32) :
    (2 ^ 32 - 1 - x) % 2 ^ k = 2 ^ k - 1 - x % 2 ^ k := by
  obtain ⟨m, hm⟩ : 2 ^ k ∣ 2 ^ 32 := pow_dvd_pow 2 hk
  have hdiv := div_add_mod x (2 ^ k)
  have hlt : x / 2 ^ k < m := by
    rw [hm] at hx
    exact Nat.div_lt_of_lt_mul hx
  have hsplit : 2 ^ 32 - 1 - x = 2 ^ k * (m - 1 - x / 2 ^ k) + (2 ^ k - 1 - x % 2 ^ k) := by
    have hexp : 2 ^ k * (m - 1 - x / 2 ^ k) + 2 ^ k * (x / 2 ^ k) + 2 ^ k = 2 ^ k * m := by
      rw [← mul_add, ← mul_succ]
      congr 1
      omega
    omega
  rw [hsplit, mul_add_mod, mod_eq_of_lt (by omega)]

lemma hilbertRot_none {x y k : ℕ} (rx ry : ℕ) (hx : x < 2 ^ 32) (hy : y < 2 ^ 32) (hk : k ≤ 32) :
    (hilbertRot none x y rx ry).1 < 2 ^ 32 ∧ (hilbertRot none x y rx ry).2 < 2 ^ 32 ∧
    ((hilbertRot none x y rx ry).1 % 2 ^ k, (hilbertRot none x y rx ry).2 % 2 ^ k) =
      turn (2 ^ k) rx ry (x % 2 ^ k, y % 2 ^ k) := by
  unfold hilbertRot turn
  by_cases hry : ry = 0
  · by_cases hrx : rx = 1
    · simp only [hry, hrx, if_true, complement_mod hx hk, complement_mod hy hk, and_true]
      omega
    · simp only [hry, hrx, if_true, if_false]
      exact ⟨hy, hx, trivial⟩
  · simp only [hry, if_false]
    exact ⟨hx, hy, trivial⟩

lemma hilbertEncodeLoop_eq {k x y : ℕ} (d : ℕ) (hx : x < 2 ^ 32) (hy : y < 2 ^ 32)
    (hk : k ≤ 32) : hilbertEncodeLoop k x y d = d + index k x y := by
  induction k generalizing x y d with
  | zero => rfl
  | succ k ih =>
    obtain ⟨h1, h2, hturn⟩ :=
      hilbertRot_none (k := k) (x / 2 ^ k % 2) (y / 2 ^ k % 2) hx hy (by omega)
    have hsq : 2 ^ k * 2 ^ k = 4 ^ k := by rw [← Nat.mul_pow]
    simp only [hilbertEncodeLoop, testBit_ite]
    rw [ih _ h1 h2 (by omega), ← index_mod]
    simp only [index, quadrant, hsq, ← hturn]
    ring

/-- `hilbert_encode` is the index along the curve of order 32. -/
theorem hilbertEncode_eq (lat lon : UInt32) :
    hilbertEncode lat lon = index 32 lat.toNat lon.toNat := by
  rw [hilbertEncode, hilbertEncodeLoop_eq 0 lat.toNat_lt lon.toNat_lt le_rfl, zero_add]

lemma hilbertRot_some {x y rx ry j : ℕ} (hj : j < 32) (hx : x < 2 ^ j) (hy : y < 2 ^ j) :
    hilbertRot (some (2 ^ j)) x y rx ry = turn (2 ^ j) rx ry (x, y) := by
  have hpow : 2 ^ j ≤ 2 ^ 31 := Nat.pow_le_pow_right (by norm_num) (by omega)
  have hwrap : ∀ z, z < 2 ^ j → wrappingSub32 (wrappingSub32 (2 ^ j) 1) z = 2 ^ j - 1 - z := by
    unfold wrappingSub32
    omega
  unfold hilbertRot turn
  by_cases hry : ry = 0
  · by_cases hrx : rx = 1
    · simp [hry, hrx, hwrap x hx, hwrap y hy]
    · simp [hry, hrx]
  · simp [hry]

/-- The decoder's loop walks the curve from order `j` to order `j + steps`. -/
theorem hilbertDecodeLoop_eq {j d : ℕ} (steps : ℕ) (h : j + steps ≤ 32) :
    hilbertDecodeLoop steps j (d / 4 ^ j) (point j (d % 4 ^ j)).1
      (point j (d % 4 ^ j)).2 = point (j + steps) (d % 4 ^ (j + steps)) := by
  induction steps generalizing j with
  | zero => rfl
  | succ steps ih =>
    have hj : j < 32 := by omega
    obtain ⟨h1, h2⟩ := point_lt j (d % 4 ^ j)
    have hdigit : d % 4 ^ (j + 1) / 4 ^ j = d / 4 ^ j % 4 := by
      rw [pow_succ, mod_mul_right_div_self]
    have hlow : d % 4 ^ (j + 1) % 4 ^ j = d % 4 ^ j :=
      mod_mod_of_dvd d (pow_dvd_pow 4 (le_succ j))
    have hrx : (d / 4 ^ j) >>> 1 &&& 1 = d / 4 ^ j % 4 / 2 % 2 := by
      rw [and_one_is_mod]
      omega
    have hry : ∀ r, r < 2 → (d / 4 ^ j ^^^ r) &&& 1 = (d / 4 ^ j % 4 ^^^ r) % 2 := by
      intro r hr
      rw [and_one_is_mod, xor_mod_two_eq, xor_mod_two_eq]
      omega
    have hnext : (d / 4 ^ j) >>> 2 = d / 4 ^ (j + 1) := by
      rw [Nat.shiftRight_eq_div_pow, Nat.div_div_eq_div_mul, pow_succ 4 j]
    set rx := d / 4 ^ j % 4 / 2 % 2 with hrxdef
    set ry := (d / 4 ^ j % 4 ^^^ rx) % 2 with hrydef
    have hrxlt : rx < 2 := mod_lt _ (by norm_num)
    -- The level just walked is one step of the recursion of `Hilbert.point`.
    have hpoint : point (j + 1) (d % 4 ^ (j + 1)) =
        ((turn (2 ^ j) rx ry (point j (d % 4 ^ j))).1 + 2 ^ j * rx,
          (turn (2 ^ j) rx ry (point j (d % 4 ^ j))).2 + 2 ^ j * ry) := by
      simp [point, hdigit, hlow, ← hrxdef, ← hrydef]
    obtain ⟨hn1, hn2⟩ := point_lt (j + 1) (d % 4 ^ (j + 1))
    have hfit : 2 ^ (j + 1) ≤ 2 ^ 32 := Nat.pow_le_pow_right (by norm_num) (by omega)
    have hrec := ih (j := j + 1) (by omega)
    rw [hpoint] at hn1 hn2 hrec
    have hindex : j + 1 + steps = j + (steps + 1) := by omega
    rw [hindex] at hrec
    simp only [hilbertDecodeLoop, hrx, hry rx hrxlt, ← hrydef, hnext, hilbertRot_some hj h1 h2]
    rw [mod_eq_of_lt (lt_of_lt_of_le hn1 hfit), mod_eq_of_lt (lt_of_lt_of_le hn2 hfit)]
    exact hrec

/-- `hilbert_decode` is the cell along the curve of order 32. -/
theorem hilbertDecode_eq {d : ℕ} (hd : d < 2 ^ 64) :
    hilbertDecode d = (ofNat (point 32 d).1, ofNat (point 32 d).2) := by
  have h := hilbertDecodeLoop_eq (d := d) 32 le_rfl
  have hmod : d % 4 ^ (0 + 32) = d := Nat.mod_eq_of_lt (by omega)
  simp only [pow_zero, Nat.div_one, hmod, Nat.zero_add] at h
  rw [← h]
  rfl

namespace Geometry

lemma curveIndex_lt (g : Geometry) : g.curveIndex < 2 ^ 64 := by
  rw [curveIndex, hilbertEncode_eq]
  exact lt_of_lt_of_le (index_lt 32 _ _) (by norm_num)

lemma fromCurveKey_curveIndex (g : Geometry) : fromCurveKey g.curveIndex = g := by
  have hpoint := point_index g.lat.toNat_lt g.lon.toNat_lt
  simp only [fromCurveKey, hilbertDecode_eq g.curveIndex_lt]
  rw [curveIndex, hilbertEncode_eq, hpoint]
  simp

lemma curveIndex_fromCurveKey {code : ℕ} (h : code < 2 ^ 64) :
    (fromCurveKey code).curveIndex = code := by
  obtain ⟨h1, h2⟩ := point_lt 32 code
  simp only [fromCurveKey, curveIndex, hilbertDecode_eq h, hilbertEncode_eq]
  rw [toNat_ofNat_of_lt' h1, toNat_ofNat_of_lt' h2]
  exact index_point (by omega)

lemma settles (a b : Geometry) : Settles (a.cmp b) a.curveKeyBytes b.curveKeyBytes := by
  have ha := a.curveIndex_lt
  have hb := b.curveIndex_lt
  exact Settles.beBytes (by omega) (by omega)

end Geometry

/-! ## The laws of the curve -/

lemma hilbertEncode_block {k bx by' : ℕ} (hk : k ≤ 32) (hx : bx < 2 ^ (32 - k))
    (hy : by' < 2 ^ (32 - k)) :
    Set.image (fun c : UInt32 × UInt32 => hilbertEncode c.1 c.2)
        {c | c.1.toNat / 2 ^ k = bx ∧ c.2.toNat / 2 ^ k = by'} =
      Set.Ico (index (32 - k) bx by' * 4 ^ k)
        ((index (32 - k) bx by' + 1) * 4 ^ k) := by
  have hpos : 0 < 4 ^ k := by positivity
  -- Membership in the range is the index of the block.
  have hrange : ∀ d, d ∈ Set.Ico (index (32 - k) bx by' * 4 ^ k)
      ((index (32 - k) bx by' + 1) * 4 ^ k) ↔
        d / 4 ^ k = index (32 - k) bx by' := by
    intro d
    rw [Set.mem_Ico, Nat.add_mul, Nat.div_eq_iff hpos]
    omega
  have hdiv : ∀ x y, index 32 x y / 4 ^ k =
      index (32 - k) (x / 2 ^ k) (y / 2 ^ k) := by
    intro x y
    have h := index_div (32 - k) k x y
    rwa [Nat.sub_add_cancel hk] at h
  have hcoarse : ∀ z, z < 2 ^ 32 → z / 2 ^ k < 2 ^ (32 - k) := by
    intro z hz
    apply Nat.div_lt_of_lt_mul
    rwa [← pow_add, Nat.add_sub_cancel' hk]
  ext d
  rw [hrange]
  constructor
  · rintro ⟨⟨lat, lon⟩, ⟨rfl, rfl⟩, rfl⟩
    simp [hilbertEncode_eq, hdiv]
  · intro hd
    have hlt : d < 4 ^ 32 := by
      have hbound := index_lt (32 - k) bx by'
      rw [← hd] at hbound
      have hmul := (Nat.div_lt_iff_lt_mul hpos).mp hbound
      rwa [← pow_add, Nat.sub_add_cancel hk] at hmul
    obtain ⟨h1, h2⟩ := point_lt 32 d
    have hindex := index_point hlt
    have hblock := hdiv (point 32 d).1 (point 32 d).2
    rw [hindex, hd] at hblock
    -- One index, one block: the coarse cells agree.
    have hcell := congrArg (point (32 - k)) hblock
    rw [point_index hx hy, point_index (hcoarse _ h1) (hcoarse _ h2), Prod.mk.injEq] at hcell
    refine ⟨(ofNat (point 32 d).1, ofNat (point 32 d).2), ?_, ?_⟩
    · simp only [Set.mem_ofPred_eq, toNat_ofNat_of_lt' h1, toNat_ofNat_of_lt' h2]
      exact ⟨hcell.1.symm, hcell.2.symm⟩
    · simp [hilbertEncode_eq, toNat_ofNat_of_lt' h1, toNat_ofNat_of_lt' h2,
        hindex]

/-- The two codecs are mutually inverse, every aligned block of side `2 ^ k` is mapped onto one
aligned range of `4 ^ k` indices, and the cells of consecutive indices are neighbours. -/
theorem hilbert_curve_laws : (∀ lat lon : UInt32, hilbertEncode lat lon < 2 ^ 64 ∧
      hilbertDecode (hilbertEncode lat lon) = (lat, lon)) ∧
    (∀ d < 2 ^ 64, hilbertEncode (hilbertDecode d).1 (hilbertDecode d).2 = d) ∧
    (∀ k ≤ 32, ∀ bx < 2 ^ (32 - k), ∀ by' < 2 ^ (32 - k), ∃ m,
      Set.image (fun c : UInt32 × UInt32 => hilbertEncode c.1 c.2)
        {c | c.1.toNat / 2 ^ k = bx ∧ c.2.toNat / 2 ^ k = by'} =
          Set.Ico (m * 4 ^ k) ((m + 1) * 4 ^ k)) ∧
    (∀ d, d + 1 < 2 ^ 64 → Adjacent ((hilbertDecode d).1.toNat, (hilbertDecode d).2.toNat)
      ((hilbertDecode (d + 1)).1.toNat, (hilbertDecode (d + 1)).2.toNat)) := by
  refine ⟨?_, ?_, ?_, ?_⟩
  · intro lat lon
    have h := Geometry.fromCurveKey_curveIndex ⟨lat, lon⟩
    simp only [Geometry.fromCurveKey, Geometry.mk.injEq] at h
    exact ⟨Geometry.curveIndex_lt ⟨lat, lon⟩, Prod.ext h.1 h.2⟩
  · intro d hd
    exact Geometry.curveIndex_fromCurveKey hd
  · intro k hk bx hx by' hy
    exact ⟨_, hilbertEncode_block hk hx hy⟩
  · intro d hd
    obtain ⟨h1, h2⟩ := point_lt 32 d
    obtain ⟨h3, h4⟩ := point_lt 32 (d + 1)
    rw [hilbertDecode_eq (by omega), hilbertDecode_eq hd]
    simp only [toNat_ofNat_of_lt' h1, toNat_ofNat_of_lt' h2,
      toNat_ofNat_of_lt' h3, toNat_ofNat_of_lt' h4]
    exact point_adjacent (by omega)

end Kyzo

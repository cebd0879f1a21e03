import Mathlib.Data.Nat.Bitwise
import Mathlib.Tactic

/-!
# The Hilbert curve of order `k`

`Hilbert.index k` numbers the cells of the `2 ^ k × 2 ^ k` grid along the Hilbert curve, and
`Hilbert.point k` goes back.  Both recurse on the order: the top bits of the two coordinates select
one of four quadrants, `turn` moves the curve of the next lower order into that quadrant, and
because `turn` is an involution the two maps are mutually inverse (`Hilbert.point_index`,
`Hilbert.index_point`).  The aligned blocks of side `2 ^ k` follow the curve of the coarser grid
(`Hilbert.index_div`), and consecutive cells are neighbours (`Hilbert.point_adjacent`).
-/

namespace Kyzo

open Nat

namespace Hilbert

/-- The position of the quadrant `(rx, ry)` along the curve. -/
def quadrant (rx ry : ℕ) : ℕ := (3 * rx) ^^^ ry

/-- The symmetry of the square of side `n` that carries the base curve into a quadrant. -/
def turn (n rx ry : ℕ) (p : ℕ × ℕ) : ℕ × ℕ :=
  if ry = 0 then
    if rx = 1 then (n - 1 - p.2, n - 1 - p.1) else (p.2, p.1)
  else p

/-- The number of the cell `(x, y)` along the curve of order `k`. -/
def index : ℕ → ℕ → ℕ → ℕ
  | 0, _, _ => 0
  | k + 1, x, y =>
    let rx := x / 2 ^ k % 2
    let ry := y / 2 ^ k % 2
    let p := turn (2 ^ k) rx ry (x % 2 ^ k, y % 2 ^ k)
    4 ^ k * quadrant rx ry + index k p.1 p.2

/-- The cell with number `d` along the curve of order `k`. -/
def point : ℕ → ℕ → ℕ × ℕ
  | 0, _ => (0, 0)
  | k + 1, d =>
    let rx := d / 4 ^ k / 2 % 2
    let ry := (d / 4 ^ k ^^^ rx) % 2
    let p := turn (2 ^ k) rx ry (point k (d % 4 ^ k))
    (p.1 + 2 ^ k * rx, p.2 + 2 ^ k * ry)

variable {rx ry : ℕ}

lemma quadrant_lt (hx : rx < 2) (hy : ry < 2) : quadrant rx ry < 4 := by
  interval_cases rx <;> interval_cases ry <;> decide

lemma quadrant_bits (hx : rx < 2) (hy : ry < 2) :
    quadrant rx ry / 2 % 2 = rx ∧ (quadrant rx ry ^^^ rx) % 2 = ry := by
  interval_cases rx <;> interval_cases ry <;> decide

lemma quadrant_of_digit {q : ℕ} (hq : q < 4) :
    quadrant (q / 2 % 2) ((q ^^^ (q / 2 % 2)) % 2) = q := by
  interval_cases q <;> decide

variable {n : ℕ} {p : ℕ × ℕ}

/-- `turn` stays inside the square. -/
theorem turn_lt (rx ry : ℕ) (h1 : p.1 < n) (h2 : p.2 < n) :
    (turn n rx ry p).1 < n ∧ (turn n rx ry p).2 < n := by
  unfold turn
  split
  · split
    · exact ⟨by omega, by omega⟩
    · exact ⟨h2, h1⟩
  · exact ⟨h1, h2⟩

/-- `turn` undoes itself. -/
theorem turn_turn (h1 : p.1 < n) (h2 : p.2 < n) : turn n rx ry (turn n rx ry p) = p := by
  unfold turn
  by_cases hy : ry = 0
  · by_cases hx : rx = 1
    · simp only [hy, hx, if_true]
      ext <;> simp only <;> omega
    · simp [hy, hx]
  · simp [hy]

/-- The curve of order `k` has `4 ^ k` cells. -/
theorem index_lt (k x y : ℕ) : index k x y < 4 ^ k := by
  induction k generalizing x y with
  | zero => simp [index]
  | succ k ih =>
    have hq := quadrant_lt (mod_lt (x / 2 ^ k) (by norm_num : 2 > 0))
      (mod_lt (y / 2 ^ k) (by norm_num : 2 > 0))
    have hrec := ih (turn (2 ^ k) (x / 2 ^ k % 2) (y / 2 ^ k % 2) (x % 2 ^ k, y % 2 ^ k)).1
      (turn (2 ^ k) (x / 2 ^ k % 2) (y / 2 ^ k % 2) (x % 2 ^ k, y % 2 ^ k)).2
    calc 4 ^ k * quadrant (x / 2 ^ k % 2) (y / 2 ^ k % 2) + _ <
          4 ^ k * quadrant (x / 2 ^ k % 2) (y / 2 ^ k % 2) + 4 ^ k := by
          exact Nat.add_lt_add_left hrec _
      _ = 4 ^ k * (quadrant (x / 2 ^ k % 2) (y / 2 ^ k % 2) + 1) := by ring
      _ ≤ 4 ^ k * 4 := mul_le_mul_left _ hq

/-- The cells of the curve of order `k` lie in the square of side `2 ^ k`. -/
theorem point_lt (k d : ℕ) : (point k d).1 < 2 ^ k ∧ (point k d).2 < 2 ^ k := by
  induction k generalizing d with
  | zero => simp [point]
  | succ k ih =>
    obtain ⟨h1, h2⟩ := ih (d % 4 ^ k)
    obtain ⟨t1, t2⟩ := turn_lt (d / 4 ^ k / 2 % 2)
      ((d / 4 ^ k ^^^ (d / 4 ^ k / 2 % 2)) % 2) h1 h2
    simp only [point, pow_succ]
    constructor
    · have : 2 ^ k * (d / 4 ^ k / 2 % 2) ≤ 2 ^ k * 1 := mul_le_mul_left _ (by omega)
      omega
    · have : 2 ^ k * ((d / 4 ^ k ^^^ (d / 4 ^ k / 2 % 2)) % 2) ≤ 2 ^ k * 1 :=
        mul_le_mul_left _ (by omega)
      omega

/-- Only the low `k` bits of the coordinates matter. -/
theorem index_mod (k x y : ℕ) : index k (x % 2 ^ k) (y % 2 ^ k) = index k x y := by
  cases k with
  | zero => rfl
  | succ k =>
    have hbit : ∀ z : ℕ, z % 2 ^ (k + 1) / 2 ^ k % 2 = z / 2 ^ k % 2 := by
      intro z
      rw [pow_succ, mod_mul_right_div_self, mod_mod]
    have hlow : ∀ z : ℕ, z % 2 ^ (k + 1) % 2 ^ k = z % 2 ^ k := by
      intro z
      exact mod_mod_of_dvd z (pow_dvd_pow 2 (le_succ k))
    simp [index, hbit, hlow]

lemma mod_add_top {k x : ℕ} (hx : x < 2 ^ (k + 1)) : x % 2 ^ k + 2 ^ k * (x / 2 ^ k % 2) = x := by
  have hlt : x / 2 ^ k < 2 := Nat.div_lt_of_lt_mul (by omega)
  rw [mod_eq_of_lt hlt, mod_add_div]

lemma point_index {k x y : ℕ} (hx : x < 2 ^ k) (hy : y < 2 ^ k) :
    point k (index k x y) = (x, y) := by
  induction k generalizing x y with
  | zero =>
    have hx0 : x = 0 := by simpa using hx
    have hy0 : y = 0 := by simpa using hy
    subst hx0 hy0
    rfl
  | succ k ih =>
    have hpos : 0 < 2 ^ k := by positivity
    have hrx : x / 2 ^ k % 2 < 2 := mod_lt _ (by norm_num)
    have hry : y / 2 ^ k % 2 < 2 := mod_lt _ (by norm_num)
    obtain ⟨hq1, hq2⟩ := quadrant_bits hrx hry
    have hlx : x % 2 ^ k < 2 ^ k := mod_lt x hpos
    have hly : y % 2 ^ k < 2 ^ k := mod_lt y hpos
    have hturn := turn_lt (x / 2 ^ k % 2) (y / 2 ^ k % 2)
      (p := (x % 2 ^ k, y % 2 ^ k)) hlx hly
    set p := turn (2 ^ k) (x / 2 ^ k % 2) (y / 2 ^ k % 2) (x % 2 ^ k, y % 2 ^ k) with hp
    have hsub := index_lt k p.1 p.2
    have hdiv : (4 ^ k * quadrant (x / 2 ^ k % 2) (y / 2 ^ k % 2) + index k p.1 p.2) / 4 ^ k =
        quadrant (x / 2 ^ k % 2) (y / 2 ^ k % 2) := by
      rw [mul_add_div (by positivity), div_eq_of_lt hsub, add_zero]
    have hmod : (4 ^ k * quadrant (x / 2 ^ k % 2) (y / 2 ^ k % 2) + index k p.1 p.2) % 4 ^ k =
        index k p.1 p.2 := by
      rw [mul_add_mod, mod_eq_of_lt hsub]
    have hback : turn (2 ^ k) (x / 2 ^ k % 2) (y / 2 ^ k % 2) p = (x % 2 ^ k, y % 2 ^ k) := by
      exact turn_turn hlx hly
    simp [index, point, ← hp, hdiv, hmod, hq1, hq2, ih hturn.1 hturn.2, hback,
      mod_add_top hx, mod_add_top hy]

lemma index_point {k d : ℕ} (hd : d < 4 ^ k) : index k (point k d).1 (point k d).2 = d := by
  induction k generalizing d with
  | zero =>
    have hd0 : d = 0 := by simpa using hd
    subst hd0
    rfl
  | succ k ih =>
    have hpos : 0 < 4 ^ k := by positivity
    have hq : d / 4 ^ k < 4 := Nat.div_lt_of_lt_mul (by omega)
    have hrx : d / 4 ^ k / 2 % 2 < 2 := mod_lt _ (by norm_num)
    have hry : (d / 4 ^ k ^^^ (d / 4 ^ k / 2 % 2)) % 2 < 2 := mod_lt _ (by norm_num)
    have hquad := quadrant_of_digit hq
    set rx := d / 4 ^ k / 2 % 2 with hrxdef
    set ry := (d / 4 ^ k ^^^ rx) % 2 with hrydef
    obtain ⟨h1, h2⟩ := point_lt k (d % 4 ^ k)
    obtain ⟨t1, t2⟩ := turn_lt rx ry h1 h2
    set p := turn (2 ^ k) rx ry (point k (d % 4 ^ k)) with hp
    have hbit : ∀ a r : ℕ, a < 2 ^ k → r < 2 → (a + 2 ^ k * r) / 2 ^ k % 2 = r ∧
        (a + 2 ^ k * r) % 2 ^ k = a := by
      intro a r ha hr
      have hpow : 0 < 2 ^ k := by positivity
      constructor
      · rw [add_mul_div_left _ _ hpow, div_eq_of_lt ha, zero_add, mod_eq_of_lt hr]
      · rw [add_mul_mod_self_left, mod_eq_of_lt ha]
    obtain ⟨hb1, hl1⟩ := hbit p.1 rx t1 hrx
    obtain ⟨hb2, hl2⟩ := hbit p.2 ry t2 hry
    have hback : turn (2 ^ k) rx ry (p.1, p.2) = point k (d % 4 ^ k) := by
      exact turn_turn h1 h2
    have hpoint : point (k + 1) d = (p.1 + 2 ^ k * rx, p.2 + 2 ^ k * ry) := rfl
    rw [hpoint]
    simp only [index, hb1, hb2, hl1, hl2, hback, hquad, ih (mod_lt d hpos)]
    exact div_add_mod d (4 ^ k)

/-! ## Blocks -/

lemma turn_div {m k : ℕ} (rx ry : ℕ) (h1 : p.1 < 2 ^ (m + k)) (h2 : p.2 < 2 ^ (m + k)) :
    ((turn (2 ^ (m + k)) rx ry p).1 / 2 ^ k, (turn (2 ^ (m + k)) rx ry p).2 / 2 ^ k) =
      turn (2 ^ m) rx ry (p.1 / 2 ^ k, p.2 / 2 ^ k) := by
  have hflip : ∀ z, z < 2 ^ (m + k) → (2 ^ (m + k) - 1 - z) / 2 ^ k = 2 ^ m - 1 - z / 2 ^ k := by
    intro z hz
    rw [pow_add] at hz ⊢
    rw [show 2 ^ m * 2 ^ k - 1 - z = 2 ^ k * 2 ^ m - (z + 1) by rw [mul_comm]; omega,
      mul_sub_div _ _ _ (by rw [mul_comm]; exact hz)]
    omega
  unfold turn
  split
  · split
    · simp [hflip p.1 h1, hflip p.2 h2]
    · rfl
  · rfl

/-- The aligned blocks of side `2 ^ k` lie along the curve as the cells of the coarser grid do. -/
theorem index_div (m k x y : ℕ) : index (m + k) x y / 4 ^ k = index m (x / 2 ^ k) (y / 2 ^ k) := by
  induction m generalizing x y with
  | zero => rw [zero_add, div_eq_of_lt (index_lt k x y)]; rfl
  | succ m ih =>
    have hpos : 0 < 2 ^ (m + k) := by positivity
    have hbit : ∀ z : ℕ, z / 2 ^ (m + k) % 2 = z / 2 ^ k / 2 ^ m % 2 := by
      intro z
      rw [Nat.div_div_eq_div_mul, ← pow_add, Nat.add_comm]
    have hlow : ∀ z : ℕ, z % 2 ^ (m + k) / 2 ^ k = z / 2 ^ k % 2 ^ m := by
      intro z
      rw [add_comm m k, pow_add, mod_mul_right_div_self]
    have hturn := turn_div (x / 2 ^ (m + k) % 2) (y / 2 ^ (m + k) % 2)
      (p := (x % 2 ^ (m + k), y % 2 ^ (m + k))) (mod_lt x hpos) (mod_lt y hpos)
    rw [add_right_comm]
    simp only [index]
    rw [add_comm m k, pow_add 4 k m, mul_assoc, mul_add_div (by positivity), add_comm k m, ih]
    rw [Prod.ext_iff] at hturn
    simp only [hlow] at hturn
    rw [hturn.1, hturn.2, hbit x, hbit y]

/-! ## Consecutive cells -/

/-- Two cells differ by one in exactly one axis. -/
def Adjacent (p q : ℕ × ℕ) : Prop :=
  (p.1 = q.1 ∧ (p.2 + 1 = q.2 ∨ q.2 + 1 = p.2)) ∨ (p.2 = q.2 ∧ (p.1 + 1 = q.1 ∨ q.1 + 1 = p.1))

lemma point_zero (k : ℕ) : point k 0 = (0, 0) := by
  induction k with
  | zero => rfl
  | succ k ih => simp [point, turn, ih]

lemma point_last (k : ℕ) : point k (4 ^ k - 1) = (2 ^ k - 1, 0) := by
  induction k with
  | zero => rfl
  | succ k ih =>
    have hpos : 0 < 4 ^ k := by positivity
    have hpos2 : 0 < 2 ^ k := by positivity
    have hdiv : (4 ^ (k + 1) - 1) / 4 ^ k = 3 := by
      exact Nat.div_eq_of_lt_le (by omega) (by omega)
    have hmod : (4 ^ (k + 1) - 1) % 4 ^ k = 4 ^ k - 1 := by
      have h := div_add_mod (4 ^ (k + 1) - 1) (4 ^ k)
      rw [hdiv, pow_succ] at h
      rw [pow_succ]
      omega
    simp only [point, hdiv, hmod, ih]
    norm_num [turn]
    omega

lemma Adjacent.turn {q : ℕ × ℕ} (h : Adjacent p q) (hp1 : p.1 < n) (hp2 : p.2 < n)
    (hq1 : q.1 < n) (hq2 : q.2 < n) : Adjacent (turn n rx ry p) (turn n rx ry q) := by
  unfold Adjacent Hilbert.turn at *
  split
  · split <;> simp only <;> omega
  · exact h

lemma Adjacent.add {q : ℕ × ℕ} (h : Adjacent p q) (a b : ℕ) :
    Adjacent (p.1 + a, p.2 + b) (q.1 + a, q.2 + b) := by
  unfold Adjacent at *
  omega

lemma point_adjacent {k d : ℕ} (hd : d + 1 < 4 ^ k) : Adjacent (point k d) (point k (d + 1)) := by
  induction k generalizing d with
  | zero => simp at hd
  | succ k ih =>
    have hpos : 0 < 4 ^ k := by positivity
    have hpos2 : 0 < 2 ^ k := by positivity
    have hq : (d + 1) / 4 ^ k < 4 := Nat.div_lt_of_lt_mul (by omega)
    have hsplit : d + 1 = 4 ^ k * (d / 4 ^ k) + (d % 4 ^ k + 1) := by
      rw [← add_assoc, div_add_mod]
    by_cases hin : d % 4 ^ k + 1 < 4 ^ k
    · -- Both cells lie in one quadrant.
      have hdiv : (d + 1) / 4 ^ k = d / 4 ^ k := by
        rw [hsplit, mul_add_div hpos, div_eq_of_lt hin, add_zero]
      have hmod : (d + 1) % 4 ^ k = d % 4 ^ k + 1 := by
        rw [hsplit, mul_add_mod, mod_eq_of_lt hin]
      have hpt := point_lt k (d % 4 ^ k)
      have hpt' := point_lt k (d % 4 ^ k + 1)
      simp only [point, hdiv, hmod]
      exact ((ih hin).turn hpt.1 hpt.2 hpt'.1 hpt'.2).add _ _
    · -- The curve crosses into the next quadrant.
      have hlast : d % 4 ^ k = 4 ^ k - 1 := by
        omega
      have hnext : d % 4 ^ k + 1 = 4 ^ k := by omega
      have hdiv : (d + 1) / 4 ^ k = d / 4 ^ k + 1 := by
        rw [hsplit, Nat.mul_add_div hpos, hnext, Nat.div_self hpos]
      have hmod : (d + 1) % 4 ^ k = 0 := by
        rw [hsplit, mul_add_mod, hnext, mod_self]
      simp only [point, hdiv, hmod, hlast, point_zero, point_last]
      have hquad : d / 4 ^ k < 3 := by omega
      generalize d / 4 ^ k = q at hquad
      interval_cases q <;> norm_num [Hilbert.turn, Adjacent] <;> omega

end Hilbert

end Kyzo

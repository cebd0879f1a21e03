import Mathlib.Tactic

/-!
# Order-preserving self-delimiting byte strings

The comparison of two byte strings is the lexicographic one (`compare` on `List UInt8`, a proper
prefix first).  The notion this file develops is `Settles o a b`: whatever is appended to `a` and
to `b`, the comparison of the two results is `o`, and only when `o` is `eq` do the appended tails
decide.  A code `enc` that embeds an order `cmp` and is prefix free is a code with
`Settles (cmp x y) (enc x) (enc y)` for all `x`, `y`; the point of quantifying over the tails is
that the property composes: fields in a row (`Settles.append`), a marker byte in front
(`Settles.cons`), complemented fields (`Settles.complement`), fixed-width big-endian numbers
(`Settles.beBytes`), escaped and terminated strings (`Settles.escape`), and terminated sequences
(`Settles.flatMap`).
-/

namespace Kyzo

open List Nat Ordering UInt8

/-- A byte string. -/
abbrev Bytes := List UInt8

/-! ## Comparing bytes and numbers -/

lemma compare_uint8 (x y : UInt8) : compare x y = compare x.toNat y.toNat := by
  simp [compare, compareOfLessAndEq, lt_iff_toNat_lt, UInt8.toNat_inj]

lemma compare_uint8_eq_lt {x y : UInt8} : compare x y = .lt ↔ x.toNat < y.toNat := by
  rw [compare_uint8, Nat.compare_eq_lt]

lemma compare_complement (x y : UInt8) : compare (~~~x) (~~~y) = (compare x y).swap := by
  have hx : x.toNat < 256 := x.toNat_lt
  have hy : y.toNat < 256 := y.toNat_lt
  rw [compare_uint8, compare_uint8, toNat_not, toNat_not, Nat.compare_swap,
    compare_eq_ite_lt, compare_eq_ite_lt]
  grind

/-! ## Settled comparisons -/

/-- `a` and `b` settle their comparison as `o`: appending `s` to `a` and `t` to `b` gives two
strings that compare as `o`, or as `s` and `t` when `o` is `eq`. -/
def Settles (o : Ordering) (a b : Bytes) : Prop :=
  ∀ s t : Bytes, compare (a ++ s) (b ++ t) = o.then (compare s t)

namespace Settles

variable {o : Ordering} {a b : Bytes}

lemma compare_eq (h : Settles o a b) : compare a b = o := by
  have h0 := h [] []
  simpa using h0

lemma nil : Settles .eq [] [] := by
  intro s t
  simp

lemma refl (a : Bytes) : Settles .eq a a := by
  intro s t
  induction a with
  | nil => simp
  | cons x a ih => simpa using ih

lemma append {o₁ o₂ : Ordering} {a₁ b₁ a₂ b₂ : Bytes} (h₁ : Settles o₁ a₁ b₁)
    (h₂ : Settles o₂ a₂ b₂) : Settles (o₁.then o₂) (a₁ ++ a₂) (b₁ ++ b₂) := by
  intro s t
  rw [append_assoc, append_assoc, h₁, h₂, then_assoc]

lemma byte (x y : UInt8) : Settles (compare x y) [x] [y] := by
  intro s t
  simp

lemma cons (x : UInt8) (h : Settles o a b) : Settles o (x :: a) (x :: b) := by
  simpa using (refl [x]).append h

variable {x y : UInt8}

lemma of_head_ne (a b : Bytes) (h : x ≠ y) : Settles (compare x y) (x :: a) (y :: b) := by
  intro s t
  have hne : compare x y ≠ .eq := fun heq => h (Std.LawfulEqOrd.eq_of_compare heq)
  rw [cons_append, cons_append, List.compare_cons_cons]
  cases hc : compare x y with
  | lt | gt => rfl
  | eq => exact absurd hc hne

/-- A smaller first byte settles the comparison as `lt`. -/
theorem of_head_lt (a b : Bytes) (h : x.toNat < y.toNat) : Settles .lt (x :: a) (y :: b) := by
  have hlt : compare x y = .lt := compare_uint8_eq_lt.mpr h
  have hne : x ≠ y := by
    rintro rfl
    exact lt_irrefl _ h
  exact hlt ▸ of_head_ne a b hne

section

variable (h : Settles o a b)
include h

lemma swap : Settles o.swap b a := by
  intro s t
  rw [Std.OrientedOrd.eq_swap, h t s, swap_then]
  congr 1
  exact Std.OrientedOrd.eq_swap.symm

/-- A settled comparison is `eq` exactly for equal strings. -/
theorem eq_iff : o = .eq ↔ a = b := by
  rw [← h.compare_eq]
  exact Std.LawfulEqOrd.compare_eq_iff_eq

lemma eq_of_isPrefix (hab : a <+: b) : a = b := by
  obtain ⟨s, rfl⟩ := hab
  have hs := h s []
  rw [append_nil, Std.ReflOrd.compare_self] at hs
  exact h.eq_iff.mp (then_eq_eq.mp hs.symm).1

lemma append_of_ne (hne : o ≠ .eq) (a' b' : Bytes) : Settles o (a ++ a') (b ++ b') := by
  intro s t
  rw [append_assoc, append_assoc, h]
  cases o with
  | eq => exact absurd rfl hne
  | lt | gt => rfl

lemma append_image (f : Bytes → Bytes) : Settles o (a ++ f a) (b ++ f b) := by
  by_cases ho : o = .eq
  · have hab : a = b := h.eq_iff.mp ho
    subst hab ho
    exact refl _
  · exact h.append_of_ne ho _ _

end

lemma of_length_eq (hlen : a.length = b.length) : Settles (compare a b) a b := by
  induction a generalizing b with
  | nil =>
    have hnil : b = [] := eq_nil_of_length_eq_zero hlen.symm
    subst hnil
    exact nil
  | cons x a ih =>
    cases b with
    | nil => simp at hlen
    | cons y b =>
      simpa using (byte x y).append (ih (by simpa using hlen))

lemma complement (hlen : a.length = b.length)
    (h : Settles o a b) : Settles o.swap (a.map (~~~·)) (b.map (~~~·)) := by
  rw [← h.compare_eq]
  clear h
  induction a generalizing b with
  | nil =>
    have hnil : b = [] := eq_nil_of_length_eq_zero hlen.symm
    subst hnil
    exact nil
  | cons x a ih =>
    cases b with
    | nil => simp at hlen
    | cons y b =>
      have hhead := byte (~~~x) (~~~y)
      rw [compare_complement] at hhead
      rw [List.compare_cons_cons, swap_then]
      simpa using hhead.append (ih (by simpa using hlen))

end Settles

/-! ## Fixed-width big-endian numbers -/

/-- The `w` low bytes of `n`, most significant first. -/
def beBytes : ℕ → ℕ → Bytes
  | 0, _ => []
  | w + 1, n => ofNat (n / 256 ^ w) :: beBytes w n

/-- The number a big-endian byte string holds. -/
def beNat (bs : Bytes) : ℕ :=
  bs.foldl (fun acc b => acc * 256 + b.toNat) 0

@[simp] lemma length_beBytes (w n : ℕ) : (beBytes w n).length = w := by
  induction w with
  | zero => rfl
  | succ w ih => simp [beBytes, ih]

/-- Only the low `w` bytes of the number matter. -/
theorem beBytes_mod (w k n : ℕ) (hwk : w ≤ k) : beBytes w (n % 256 ^ k) = beBytes w n := by
  induction w with
  | zero => rfl
  | succ w ih =>
    have hsplit : (256 : ℕ) ^ k = 256 ^ w * 256 ^ (k - w) := by
      rw [← pow_add]
      congr 1
      omega
    have hdvd : (256 : ℕ) ∣ 256 ^ (k - w) := dvd_pow_self 256 (by omega)
    have hdiv : n % 256 ^ k / 256 ^ w % 256 = n / 256 ^ w % 256 := by
      rw [hsplit, mod_mul_right_div_self, mod_mod_of_dvd _ hdvd]
    have hbyte : UInt8.ofNat (n % 256 ^ k / 256 ^ w) = UInt8.ofNat (n / 256 ^ w) := by
      apply UInt8.toNat_inj.mp
      simpa using hdiv
    rw [beBytes, beBytes, hbyte, ih (by omega)]

/-- Splitting off the most significant byte of a number below `256 ^ (w + 1)`. -/
theorem compare_split (m a b : ℕ) :
    compare a b = (compare (a / m) (b / m)).then (compare (a % m) (b % m)) := by
  rcases Nat.eq_zero_or_pos m with rfl | hm
  · simp
  rcases lt_trichotomy (a / m) (b / m) with hlt | heq | hgt
  · rw [Nat.compare_eq_lt.mpr (lt_of_div_lt_div hlt), Nat.compare_eq_lt.mpr hlt]
    rfl
  · rw [Nat.compare_eq_eq.mpr heq]
    rw [← div_add_mod a m, ← div_add_mod b m, heq]
    simp only [mul_add_mod, mod_mod, compare_eq_ite_lt]
    grind
  · rw [Nat.compare_eq_gt.mpr (lt_of_div_lt_div hgt), Nat.compare_eq_gt.mpr hgt]
    rfl

lemma Settles.beBytes {w a b : ℕ} (ha : a < 256 ^ w) (hb : b < 256 ^ w) :
    Settles (compare a b) (beBytes w a) (beBytes w b) := by
  induction w generalizing a b with
  | zero =>
    have ha0 : a = 0 := by simpa using ha
    have hb0 : b = 0 := by simpa using hb
    subst ha0 hb0
    exact Settles.nil
  | succ w ih =>
    have hpos : 0 < 256 ^ w := by positivity
    have ha' : a / 256 ^ w < 256 := Nat.div_lt_of_lt_mul (by omega)
    have hb' : b / 256 ^ w < 256 := Nat.div_lt_of_lt_mul (by omega)
    have hhead := Settles.byte (ofNat (a / 256 ^ w)) (ofNat (b / 256 ^ w))
    rw [compare_uint8, toNat_ofNat_of_lt' ha', toNat_ofNat_of_lt' hb'] at hhead
    have htail := ih (mod_lt a hpos) (mod_lt b hpos)
    rw [beBytes_mod w w a le_rfl, beBytes_mod w w b le_rfl] at htail
    rw [compare_split (256 ^ w) a b]
    simpa [Kyzo.beBytes] using hhead.append htail

lemma foldl_be (bs : Bytes) (acc : ℕ) :
    bs.foldl (fun acc b => acc * 256 + b.toNat) acc = acc * 256 ^ bs.length + beNat bs := by
  induction bs generalizing acc with
  | nil => simp [beNat]
  | cons b bs ih =>
    have h0 : beNat (b :: bs) = (0 * 256 + b.toNat) * 256 ^ bs.length + beNat bs := ih _
    rw [foldl_cons, ih, h0, length_cons]
    ring

lemma beNat_cons (b : UInt8) (bs : Bytes) :
    beNat (b :: bs) = b.toNat * 256 ^ bs.length + beNat bs := by
  have h := foldl_be bs (0 * 256 + b.toNat)
  rw [beNat, foldl_cons, h]
  ring

/-- A big-endian string of length `w` holds a number below `256 ^ w`. -/
theorem beNat_lt (bs : Bytes) : beNat bs < 256 ^ bs.length := by
  induction bs with
  | nil => simp [beNat]
  | cons b bs ih =>
    have hb : b.toNat < 256 := b.toNat_lt
    rw [beNat_cons]
    calc b.toNat * 256 ^ bs.length + beNat bs
        < b.toNat * 256 ^ bs.length + 256 ^ bs.length := by omega
      _ = (b.toNat + 1) * 256 ^ bs.length := by ring
      _ ≤ 256 * 256 ^ bs.length := mul_le_mul_right _ hb
      _ = 256 ^ bs.length * 256 := by ring

/-- Reading back the `w` low bytes of `n`. -/
theorem beNat_beBytes (w n : ℕ) : beNat (beBytes w n) = n % 256 ^ w := by
  induction w with
  | zero => simp [beBytes, beNat, mod_one]
  | succ w ih =>
    have hbyte : (UInt8.ofNat (n / 256 ^ w)).toNat = n / 256 ^ w % 256 := toNat_ofNat'
    rw [beBytes, beNat_cons, length_beBytes, ih, hbyte, pow_succ, mod_mul]
    ring

lemma beBytes_beNat (bs : Bytes) : beBytes bs.length (beNat bs) = bs := by
  induction bs with
  | nil => rfl
  | cons b bs ih =>
    have hpos : 0 < 256 ^ bs.length := by positivity
    have hlow := beNat_lt bs
    have hdiv : beNat (b :: bs) / 256 ^ bs.length = b.toNat := by
      rw [beNat_cons, add_comm, add_mul_div_right _ _ hpos, div_eq_of_lt hlow, zero_add]
    have hmod : beNat (b :: bs) % 256 ^ bs.length = beNat bs := by
      rw [beNat_cons, add_comm, add_mul_mod_self_right, mod_eq_of_lt hlow]
    rw [length_cons, beBytes, hdiv, UInt8.ofNat_toNat, ← beBytes_mod _ _ _ le_rfl, hmod, ih]

/-! ## Escaped and terminated strings -/

/-- A zero byte becomes `0x00 0xFF`, every other byte stays, and `0x00 0x00` closes the string. -/
def escape : Bytes → Bytes
  | [] => [0x00, 0x00]
  | b :: bs => if b = 0x00 then 0x00 :: 0xFF :: escape bs else b :: escape bs

/-- The escaped form of a nonempty string lies above the closing `0x00 0x00`. -/
theorem Settles.escape_nil_cons (b : UInt8) (bs : Bytes) :
    Settles .lt (escape []) (escape (b :: bs)) := by
  by_cases hb : b = 0x00
  · rw [escape, escape, if_pos hb]
    exact (Settles.of_head_lt [] (escape bs) (by decide)).cons 0x00
  · rw [escape, escape, if_neg hb]
    refine Settles.of_head_lt _ _ ?_
    have hne : b.toNat ≠ 0 := fun h => hb (UInt8.toNat_inj.mp h)
    simpa [pos_iff_ne_zero] using hne

lemma Settles.escape (a b : Bytes) : Settles (compare a b) (escape a) (escape b) := by
  induction a generalizing b with
  | nil =>
    cases b with
    | nil => exact Settles.refl _
    | cons y b => exact Settles.escape_nil_cons y b
  | cons x a ih =>
    cases b with
    | nil => exact (Settles.escape_nil_cons x a).swap
    | cons y b =>
      rw [List.compare_cons_cons]
      -- Both escaped alike, or the two first bytes already differ.
      by_cases hx : x = 0x00 <;> by_cases hy : y = 0x00
      · subst hx hy
        simpa [Kyzo.escape] using ((ih b).cons 0xFF).cons 0x00
      · subst hx
        have hlt : compare (0x00 : UInt8) y = .lt := by
          rw [compare_uint8_eq_lt]
          have hne : y.toNat ≠ 0 := fun h => hy (UInt8.toNat_inj.mp h)
          simpa [pos_iff_ne_zero] using hne
        have hne : (0x00 : UInt8) ≠ y := fun h => hy h.symm
        have hset := Settles.of_head_ne (0xFF :: Kyzo.escape a) (Kyzo.escape b) hne
        rw [hlt] at hset ⊢
        simpa [Kyzo.escape, hy] using hset
      · subst hy
        have hgt : compare x (0x00 : UInt8) = .gt := by
          have hne : x.toNat ≠ 0 := fun h => hx (UInt8.toNat_inj.mp h)
          rw [compare_uint8, Nat.compare_eq_gt]
          simpa [pos_iff_ne_zero] using hne
        have hset := Settles.of_head_ne (Kyzo.escape a) (0xFF :: Kyzo.escape b) hx
        rw [hgt] at hset ⊢
        simpa [Kyzo.escape, hx] using hset
      · simpa [Kyzo.escape, hx, hy] using (Settles.byte x y).append (ih b)

/-! ## Terminated sequences -/

variable {α : Type*} {cmp : α → α → Ordering} {enc : α → Bytes}

/-- A sequence of self-delimiting items closed by a byte below every first byte of an item
settles as the lexicographic comparison of the items. -/
theorem Settles.flatMap {z : UInt8}
    (xs ys : List α) (hitem : ∀ x ∈ xs, ∀ y ∈ ys, Settles (cmp x y) (enc x) (enc y))
    (hxs : ∀ x ∈ xs, ∃ b bs, enc x = b :: bs ∧ z.toNat < b.toNat)
    (hys : ∀ y ∈ ys, ∃ b bs, enc y = b :: bs ∧ z.toNat < b.toNat) :
    Settles (List.compareLex cmp xs ys) (xs.flatMap enc ++ [z]) (ys.flatMap enc ++ [z]) := by
  induction xs generalizing ys with
  | nil =>
    cases ys with
    | nil => exact Settles.refl _
    | cons y ys =>
      obtain ⟨b, bs, hb, hlt⟩ := hys y (by simp)
      rw [List.compareLex_nil_cons]
      simpa [hb] using Settles.of_head_lt [] (bs ++ (ys.flatMap enc ++ [z])) hlt
  | cons x xs ih =>
    cases ys with
    | nil =>
      obtain ⟨b, bs, hb, hlt⟩ := hxs x (by simp)
      rw [List.compareLex_cons_nil]
      simpa [hb] using (Settles.of_head_lt [] (bs ++ (xs.flatMap enc ++ [z])) hlt).swap
    | cons y ys =>
      have hhead := hitem x (by simp) y (by simp)
      have htail := ih ys (fun x' hx' y' hy' => hitem x' (by simp [hx']) y' (by simp [hy']))
        (fun x' hx' => hxs x' (by simp [hx'])) (fun y' hy' => hys y' (by simp [hy']))
      rw [List.compareLex_cons_cons]
      simpa using hhead.append htail

lemma Settles.flatMap_of_length_eq {xs ys : List α} (hlen : xs.length = ys.length)
    (hitem : ∀ x ∈ xs, ∀ y ∈ ys, Settles (cmp x y) (enc x) (enc y)) :
    Settles (List.compareLex cmp xs ys) (xs.flatMap enc) (ys.flatMap enc) := by
  induction xs generalizing ys with
  | nil =>
    have hnil : ys = [] := eq_nil_of_length_eq_zero hlen.symm
    subst hnil
    exact Settles.nil
  | cons x xs ih =>
    cases ys with
    | nil => simp at hlen
    | cons y ys =>
      have hlen' : xs.length = ys.length := by simpa using hlen
      have htail := ih hlen'
        (fun x' hx' y' hy' => hitem x' (by simp [hx']) y' (by simp [hy']))
      rw [List.compareLex_cons_cons]
      simpa using (hitem x (by simp) y (by simp)).append htail

/-- Without a closing byte, concatenations of nonempty self-delimiting items still compare as the
lexicographic comparison of the items: a proper prefix sequence comes first. -/
theorem compare_flatMap (xs ys : List α)
    (hitem : ∀ x ∈ xs, ∀ y ∈ ys, Settles (cmp x y) (enc x) (enc y))
    (hxs : ∀ x ∈ xs, enc x ≠ []) (hys : ∀ y ∈ ys, enc y ≠ []) :
    compare (xs.flatMap enc) (ys.flatMap enc) = List.compareLex cmp xs ys := by
  induction xs generalizing ys with
  | nil =>
    cases ys with
    | nil => rfl
    | cons y ys =>
      obtain ⟨b, bs, hb⟩ := exists_cons_of_ne_nil (hys y (by simp))
      simp [hb, List.compareLex_nil_cons]
  | cons x xs ih =>
    cases ys with
    | nil =>
      obtain ⟨b, bs, hb⟩ := exists_cons_of_ne_nil (hxs x (by simp))
      simp [hb, List.compareLex_cons_nil]
    | cons y ys =>
      have htail := ih ys (fun x' hx' y' hy' => hitem x' (by simp [hx']) y' (by simp [hy']))
        (fun x' hx' => hxs x' (by simp [hx'])) (fun y' hy' => hys y' (by simp [hy']))
      rw [flatMap_cons, flatMap_cons, hitem x (by simp) y (by simp), htail,
        List.compareLex_cons_cons]

end Kyzo

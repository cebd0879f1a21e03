import Kyzo.Lib.Sorted

/-!
# Binary search

The bisection loop over a range of positions, and on top of it the two slice searches every sorted
structure uses: `binarySearchBy`, which reports where a probe answers `eq`, and `partitionPoint`,
which reports where a predicate stops holding.  On a list along which the probe is monotone both are
counts, so their results can be added up and compared without mentioning positions; and the window
between two lower bounds is a filter of the list.
-/

namespace Kyzo

open List Ordering

variable {α : Type*}

/-- The bisection loop on `[lo, hi)`: the position of an `eq`, or the position it would take. -/
def bisectLoop (f : ℕ → Ordering) : ℕ → ℕ → ℕ → Except ℕ ℕ
  | 0, lo, _ => .error lo
  | fuel + 1, lo, hi =>
    if lo < hi then
      match f ((lo + hi) / 2) with
      | .lt => bisectLoop f fuel ((lo + hi) / 2 + 1) hi
      | .gt => bisectLoop f fuel lo ((lo + hi) / 2)
      | .eq => .ok ((lo + hi) / 2)
    else .error lo

/-- Bisection on `[0, n)`. -/
def bisect (f : ℕ → Ordering) (n : ℕ) : Except ℕ ℕ := bisectLoop f n 0 n

variable {f : ℕ → Ordering} {r : ℕ}

/-- The loop finds the one position that answers `eq`. -/
theorem bisectLoop_ok (heq : f r = .eq) (fuel lo hi : ℕ) (hfuel : hi - lo ≤ fuel)
    (hlo : lo ≤ r) (hhi : r < hi) (hbelow : ∀ i, lo ≤ i → i < r → f i = .lt)
    (habove : ∀ i, r < i → i < hi → f i = .gt) : bisectLoop f fuel lo hi = .ok r := by
  induction fuel generalizing lo hi with
  | zero => omega
  | succ fuel ih =>
    rw [bisectLoop, if_pos (by omega)]
    rcases Nat.lt_trichotomy ((lo + hi) / 2) r with hmid | hmid | hmid
    · rw [hbelow _ (by omega) hmid]
      exact ih _ _ (by omega) (by omega) hhi (fun i h => hbelow i (by omega)) habove
    · rw [hmid, heq]
    · rw [habove _ hmid (by omega)]
      exact ih _ _ (by omega) hlo hmid hbelow (fun i h h' => habove i h (by omega))

/-- Without an `eq` the loop finds where `lt` turns into `gt`. -/
theorem bisectLoop_error (fuel lo hi : ℕ) (hfuel : hi - lo ≤ fuel) (hlo : lo ≤ r)
    (hhi : r ≤ hi) (hbelow : ∀ i, lo ≤ i → i < r → f i = .lt)
    (habove : ∀ i, r ≤ i → i < hi → f i = .gt) : bisectLoop f fuel lo hi = .error r := by
  induction fuel generalizing lo hi with
  | zero =>
    have hr : lo = r := by omega
    rw [bisectLoop, hr]
  | succ fuel ih =>
    rw [bisectLoop]
    by_cases hlt : lo < hi
    · rw [if_pos hlt]
      rcases Nat.lt_or_ge ((lo + hi) / 2) r with hmid | hmid
      · rw [hbelow _ (by omega) hmid]
        exact ih _ _ (by omega) (by omega) hhi (fun i h => hbelow i (by omega)) habove
      · rw [habove _ hmid (by omega)]
        exact ih _ _ (by omega) hlo hmid hbelow (fun i h h' => habove i h (by omega))
    · have hr : lo = r := by omega
      rw [if_neg hlt, hr]

variable {i : ℕ}

/-- Whatever the loop finds answers `eq`. -/
theorem bisectLoop_sound (fuel lo hi : ℕ) (h : bisectLoop f fuel lo hi = .ok i) :
    i < hi ∧ f i = .eq := by
  induction fuel generalizing lo hi with
  | zero => cases h
  | succ fuel ih =>
    rw [bisectLoop] at h
    split_ifs at h with hlt
    · split at h
      · exact ih _ _ h
      · obtain ⟨hi', heq⟩ := ih _ _ h
        exact ⟨by omega, heq⟩
      · next heq =>
        cases h
        exact ⟨by omega, heq⟩

variable {n : ℕ}

/-- Whatever bisection finds answers `eq`. -/
theorem bisect_sound (h : bisect f n = .ok i) : i < n ∧ f i = .eq :=
  bisectLoop_sound n 0 n h

/-- Bisection finds the one position that answers `eq`. -/
theorem bisect_ok (heq : f r = .eq) (hr : r < n) (hbelow : ∀ i, i < r → f i = .lt)
    (habove : ∀ i, r < i → i < n → f i = .gt) : bisect f n = .ok r :=
  bisectLoop_ok heq n 0 n (by omega) (by omega) hr (fun i _ => hbelow i) habove

/-- Without an `eq`, bisection finds where `lt` turns into `gt`. -/
theorem bisect_error (hr : r ≤ n) (hbelow : ∀ i, i < r → f i = .lt)
    (habove : ∀ i, r ≤ i → i < n → f i = .gt) : bisect f n = .error r :=
  bisectLoop_error n 0 n (by omega) (by omega) hr (fun i _ => hbelow i) habove

lemma bisect_compare {g : ℕ → ℕ} {k : ℕ} (hmono : ∀ i j, i < j → j < n → g i < g j) (hi : i < n)
    (hk : g i = k) : bisect (fun i => compare (g i) k) n = .ok i := by
  refine bisect_ok ?_ hi ?_ ?_
  · exact Nat.compare_eq_eq.mpr hk
  · intro j hj
    exact Nat.compare_eq_lt.mpr (hk ▸ hmono j i hj hi)
  · intro j hj hjn
    exact Nat.compare_eq_gt.mpr (hk ▸ hmono i j hj hjn)

/-! ## Searching lists -/

variable (g : α → Ordering) (l : List α)

/-- The probe at a position of a list. -/
def probeAt (i : ℕ) : Ordering :=
  match l[i]? with
  | some x => g x
  | none => .gt

def binarySearchBy : Except ℕ ℕ := bisect (probeAt g l) l.length

def partitionPoint (p : α → Bool) (l : List α) : ℕ :=
  match binarySearchBy (fun x => if p x then .lt else .gt) l with
  | .ok r => r
  | .error r => r

/-- Along the list the probe answers `lt`, then at most one `eq`, then `gt`. -/
def SearchMonotone : Prop :=
  l.Pairwise fun x y => g y ≠ .gt → g x = .lt

variable {l} {g}

lemma SearchMonotone.getElem_eq_lt_iff (h : SearchMonotone g l) (hi : i < l.length) :
    g l[i] = .lt ↔ i < l.countP fun x => g x = .lt := by
  induction l generalizing i with
  | nil => simp at hi
  | cons x l ih =>
    obtain ⟨hx, htail⟩ := pairwise_cons.mp h
    by_cases hlt : g x = .lt
    · rw [countP_cons_of_pos (by simpa using hlt)]
      rcases i with _ | i
      · simp [hlt]
      · rw [getElem_cons_succ, ih htail (by simpa using hi)]
        omega
    · -- After the first position that is not `lt`, everything is `gt`.
      have hgt : ∀ y ∈ l, g y = .gt := by
        intro y hy
        by_contra hne
        exact hlt (hx y hy hne)
      have hzero : l.countP (fun y => g y = .lt) = 0 := by
        rw [countP_eq_zero]
        intro y hy
        simp [hgt y hy]
      rw [countP_cons_of_neg (by simpa using hlt), hzero]
      rcases i with _ | i
      · simp [hlt]
      · rw [getElem_cons_succ, hgt _ (getElem_mem _)]
        simp

/-- Along a monotone list, everything after a position that is not `lt` is `gt`. -/
theorem SearchMonotone.getElem_eq_gt (h : SearchMonotone g l) {j : ℕ} (hij : i < j)
    (hj : j < l.length) (hi : g l[i] ≠ .lt) : g l[j] = .gt := by
  by_contra hne
  exact hi (pairwise_iff_getElem.mp h i j (by omega) hj hij hne)

/-- **Binary search counts**: on a monotone list the answer is the number of `lt` items, found
exactly when some item answers `eq`. -/
theorem binarySearchBy_eq (h : SearchMonotone g l) : binarySearchBy g l =
      if ∃ x ∈ l, g x = .eq then .ok (l.countP fun x => g x = .lt)
      else .error (l.countP fun x => g x = .lt) := by
  have hcount : l.countP (fun x => g x = .lt) ≤ l.length := countP_le_length
  have hprobe : ∀ i, (hi : i < l.length) → probeAt g l i = g l[i] := by
    intro i hi
    rw [probeAt, List.getElem?_eq_getElem hi]
  have hbelow : ∀ i, i < l.countP (fun x => g x = .lt) → probeAt g l i = .lt := by
    intro i hi
    rw [hprobe i (by omega)]
    exact (h.getElem_eq_lt_iff (by omega)).mpr hi
  by_cases hex : ∃ x ∈ l, g x = .eq
  · rw [if_pos hex]
    obtain ⟨x, hx, heq⟩ := hex
    obtain ⟨i, hi, rfl⟩ := getElem_of_mem hx
    -- The found position is the count itself: everything below is `lt`, the item itself is not.
    have hpos : i = l.countP fun x => g x = .lt := by
      have hnot : ¬ i < l.countP fun x => g x = .lt := by
        rw [← h.getElem_eq_lt_iff hi, heq]
        simp
      by_contra hne
      have hlt : l.countP (fun x => g x = .lt) < i := by omega
      have hnlt : g l[l.countP fun x => g x = .lt] ≠ .lt := by
        rw [ne_eq, h.getElem_eq_lt_iff (by omega)]
        omega
      have hgt := h.getElem_eq_gt hlt hi hnlt
      rw [heq] at hgt
      cases hgt
    refine bisect_ok ?_ (hpos ▸ hi) hbelow ?_
    · rw [← hpos, hprobe i hi, heq]
    · intro j hj hjl
      rw [hprobe j hjl]
      exact h.getElem_eq_gt (hpos ▸ hj) hjl (by rw [heq]; simp)
  · rw [if_neg hex]
    refine bisect_error hcount hbelow ?_
    intro i hi hil
    rw [hprobe i hil]
    have hnlt : g l[i] ≠ .lt := by
      rw [ne_eq, h.getElem_eq_lt_iff hil]
      omega
    have hneq : g l[i] ≠ .eq := fun heq => hex ⟨_, getElem_mem _, heq⟩
    cases hg : g l[i] with
    | lt => exact absurd hg hnlt
    | eq => exact absurd hg hneq
    | gt => rfl

variable {p : α → Bool}

variable (h : l.Pairwise fun x y => p y = true → p x = true)
include h

lemma searchMonotone_of_switch : SearchMonotone (fun x => if p x then lt else .gt) l := by
  refine h.imp ?_
  intro x y hxy hy
  have hpy : p y = true := by
    by_contra hne
    simp [hne] at hy
  simp [hxy hpy]

omit h in
/-- The `lt` answers of a predicate's probe are the items that satisfy it. -/
theorem countP_switch (p : α → Bool) (l : List α) :
    l.countP (fun x => (if p x then lt else .gt) = .lt) = l.countP p := by
  refine countP_congr ?_
  intro x _
  cases p x <;> simp

/-- **Partition points count**: on a list along which the predicate only switches off, the partition
point is the number of items that satisfy it. -/
theorem partitionPoint_eq : partitionPoint p l = l.countP p := by
  have hnone : ¬ ∃ x ∈ l, (if p x then lt else .gt) = .eq := by
    rintro ⟨x, -, hx⟩
    cases hp : p x <;> simp [hp] at hx
  rw [partitionPoint, binarySearchBy_eq (searchMonotone_of_switch h), if_neg hnone, countP_switch]

/-! ## Windows -/

/-- A lower-bound loop that begins at `lo`: the first position of `[lo, n)` at which `below`
fails. -/
def lowerBoundFrom (below : ℕ → Bool) (lo n : ℕ) : ℕ :=
  match bisectLoop (fun i => if below i then .lt else .gt) (n - lo) lo n with
  | .ok r => r
  | .error r => r

lemma getElem_iff_lt_countP (hi : i < l.length) : p l[i] = true ↔ i < l.countP p := by
  rw [← countP_switch, ← (searchMonotone_of_switch h).getElem_eq_lt_iff hi]
  cases p l[i] <;> simp

/-- **A lower bound from a position**: the count of the predicate, but no less than the start. -/
theorem lowerBoundFrom_eq {below : ℕ → Bool} {lo : ℕ}
    (hbelow : ∀ i, (hi : i < l.length) → below i = p l[i]) (hlo : lo ≤ l.length) :
    lowerBoundFrom below lo l.length = max lo (l.countP p) := by
  have hcount : l.countP p ≤ l.length := countP_le_length
  have hloop : bisectLoop (fun i => if below i then .lt else .gt) (l.length - lo) lo l.length =
      .error (max lo (l.countP p)) := by
    refine bisectLoop_error _ _ _ (by omega) (by omega) (by omega) ?_ ?_
    · intro i hge hlt
      rw [hbelow i (by omega), if_pos ((getElem_iff_lt_countP h (by omega)).mpr (by omega))]
    · intro i hge hlt
      have hnot : ¬ p l[i] = true := by
        rw [getElem_iff_lt_countP h hlt]
        omega
      rw [hbelow i hlt, if_neg hnot]
  rw [lowerBoundFrom, hloop]

omit h

/-- **A window is a filter**: between the counts of two predicates that only switch off lie exactly
the items past the first and within the second. -/
theorem take_drop_countP {p q : α → Bool} (hq : l.Pairwise fun x y => q y = true → q x = true)
    (hp : l.Pairwise fun x y => p y = true → p x = true) :
    (l.drop (l.countP q)).take (l.countP p - l.countP q) = l.filter fun x => !q x && p x := by
  induction l with
  | nil => rfl
  | cons x l ih =>
    obtain ⟨hqx, hqs⟩ := pairwise_cons.mp hq
    obtain ⟨hpx, hps⟩ := pairwise_cons.mp hp
    by_cases hpos : p x = true
    · by_cases hqpos : q x = true
      · simp only [countP_cons_of_pos hqpos, countP_cons_of_pos hpos,
          drop_succ_cons, Nat.add_sub_add_right, ih hqs hps]
        simp [hqpos]
      · have hzero : l.countP q = 0 := by
          rw [countP_eq_zero]
          exact fun y hy hqy => hqpos (hqx y hy hqy)
        have ih' := ih hqs hps
        rw [hzero] at ih'
        rw [countP_cons_of_neg hqpos, countP_cons_of_pos hpos, hzero,
          filter_cons_of_pos (by simp [hqpos, hpos]), ← ih']
        rfl
    · -- Once `p` is off it stays off, and the window is empty.
      have hoff : ∀ y ∈ x :: l, ¬ p y = true := by
        rintro y (_ | ⟨_, hy⟩)
        · exact hpos
        · exact fun hpy => hpos (hpx y hy hpy)
      rw [countP_eq_zero.mpr hoff, Nat.zero_sub, take_zero, eq_comm, filter_eq_nil_iff]
      intro y hy
      simp [hoff y hy]

end Kyzo

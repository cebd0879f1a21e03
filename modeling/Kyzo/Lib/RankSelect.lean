import Kyzo.Lib.Bisect

/-!
# Ranks in a collection of distinct items

The rank of an item is the number of items below it.  Ranks do not depend on how the collection is
laid out: they add up over its parts and are invariant under reordering.  In the sorted layout the
rank of an item is its position, so ranks number the items of a duplicate-free collection from `0`.
`mergeDedup` is the two-way merge of sorted runs.
-/

namespace Kyzo

open List Std TransCmp OrientedCmp Nat LawfulEqOrd

variable {α : Type*} [Ord α]

/-- The number of items below `x`. -/
def rankIn (l : List α) (x : α) : ℕ := l.countP fun y => compare y x = .lt

lemma rankIn_append (l l' : List α) (x : α) : rankIn (l ++ l') x = rankIn l x + rankIn l' x :=
  countP_append

lemma rankIn_flatten (ls : List (List α)) (x : α) :
    rankIn ls.flatten x = (ls.map fun l => rankIn l x).sum :=
  countP_flatten

lemma rankIn_perm {l l' : List α} (h : l.Perm l') (x : α) : rankIn l x = rankIn l' x :=
  h.countP_eq _

lemma rankIn_le_length (l : List α) (x : α) : rankIn l x ≤ l.length := countP_le_length

section Lawful

variable [TransOrd α] {l : List α}

lemma searchMonotone_compare (h : Ascending compare l) (x : α) :
    SearchMonotone (compare · x) l := by
  refine h.imp ?_
  intro a b hab hb
  exact lt_of_lt_of_isLE hab (Ordering.isLE_iff_ne_gt.mpr hb)

variable {x y : α}

lemma rankIn_mono (l : List α) (h : compare x y = .lt) : rankIn l x ≤ rankIn l y := by
  refine countP_mono_left ?_
  intro z _ hz
  have hlt : compare z x = .lt := by simpa using hz
  simpa using lt_trans hlt h

/-- A member ranks strictly below what is above it. -/
lemma rankIn_lt (hx : x ∈ l) (h : compare x y = .lt) : rankIn l x < rankIn l y := by
  obtain ⟨l₁, l₂, rfl⟩ := append_of_mem hx
  have h₁ := rankIn_mono l₁ h
  have h₂ := rankIn_mono l₂ h
  have hself : rankIn [x] x = 0 := by simp [rankIn]
  have hother : rankIn [x] y = 1 := by simp [rankIn, h]
  have hsplit : ∀ z, rankIn (l₁ ++ x :: l₂) z = rankIn l₁ z + rankIn [x] z + rankIn l₂ z := by
    intro z
    rw [← singleton_append, rankIn_append, rankIn_append, add_assoc]
  rw [hsplit, hsplit]
  omega

section

variable (h : Ascending compare l)
include h

lemma compare_getElem_eq_lt_iff {i : ℕ}
    (hi : i < l.length) (x : α) : compare l[i] x = .lt ↔ i < rankIn l x :=
  (searchMonotone_compare h x).getElem_eq_lt_iff hi

/-- In an ascending list a rank is a position. -/
lemma rankIn_getElem {i : ℕ} (hi : i < l.length) : rankIn l l[i] = i := by
  have hself := compare_getElem_eq_lt_iff h hi l[i]
  have hge : rankIn l l[i] ≤ i := by
    by_contra hlt
    exact absurd (hself.mpr (by omega)) (by simp)
  rcases lt_or_ge (rankIn l l[i]) i with hlt | hle
  · -- The item at the rank would lie below the item at `i` without being counted.
    have hbelow : compare l[rankIn l l[i]] l[i] = .lt :=
      pairwise_iff_getElem.mp h _ _ (by omega) hi hlt
    rw [compare_getElem_eq_lt_iff h (by omega)] at hbelow
    exact absurd hbelow (lt_irrefl _)
  · omega

lemma compare_getElem {i j : ℕ} (hi : i < l.length)
    (hj : j < l.length) : compare l[i] l[j] = compare i j := by
  have hlt := pairwise_iff_getElem.mp h
  rcases Nat.lt_trichotomy i j with hij | rfl | hij
  · rw [hlt i j hi hj hij, Nat.compare_eq_lt.mpr hij]
  · rw [ReflOrd.compare_self, ReflOrd.compare_self]
  · rw [gt_iff_lt.mpr (hlt j i hj hi hij), compare_eq_gt.mpr hij]

/-- A member stands at its rank. -/
lemma getElem?_rankIn {x : α} (hx : x ∈ l) : l[rankIn l x]? = some x := by
  obtain ⟨i, hi, rfl⟩ := getElem_of_mem hx
  rw [rankIn_getElem h hi, List.getElem?_eq_getElem hi]

end

omit [TransOrd α] in
lemma Ascending.nodup [ReflOrd α] (h : Ascending compare l) : l.Nodup := by
  refine h.imp ?_
  rintro a b hab rfl
  rw [ReflOrd.compare_self] at hab
  cases hab

variable [LawfulEqOrd α]

/-- Inserting at the rank keeps the order. -/
lemma ascending_insertIdx (h : Ascending compare l) (hx : x ∉ l) :
    Ascending compare (l.insertIdx (rankIn l x) x) := by
  induction l with
  | nil => simp [rankIn, Ascending]
  | cons y l ih =>
    obtain ⟨hy, htail⟩ := pairwise_cons.mp h
    have hstep : rankIn (y :: l) x = (if compare y x = .lt then 1 else 0) + rankIn l x := by
      rw [rankIn, countP_cons, rankIn, add_comm]
      simp
    by_cases hlt : compare y x = .lt
    · rw [hstep, if_pos hlt, add_comm]
      refine pairwise_cons.mpr ⟨?_, ih htail fun hmem => hx (by simp [hmem])⟩
      intro z hz
      have hmem := (perm_insertIdx x l (rankIn_le_length l x)).mem_iff.mp hz
      rcases mem_cons.mp hmem with rfl | hmem
      · exact hlt
      · exact hy z hmem
    · -- Nothing lies below the new item, so it goes to the front.
      have hxy : compare x y = .lt := by
        cases hc : compare x y with
        | lt => rfl
        | eq => exact absurd (by rw [eq_of_compare hc]; simp) hx
        | gt => exact absurd (gt_iff_lt.mp hc) hlt
      have habove : ∀ z ∈ y :: l, compare x z = .lt := by
        intro z hz
        rcases mem_cons.mp hz with rfl | hz
        · exact hxy
        · exact lt_trans hxy (hy z hz)
      have hzero : rankIn (y :: l) x = 0 := by
        rw [rankIn, countP_eq_zero]
        intro z hz
        have hgt : compare z x = .gt := gt_iff_lt.mpr (habove z hz)
        simp [hgt]
      rw [hzero]
      exact pairwise_cons.mpr ⟨habove, h⟩

/-! ## Searching by key -/

/-- A search by keys finds the rank of the key. -/
lemma binarySearchBy_keys {β : Type*} {f : β → α} {g : β → Ordering} {l : List β}
    (hg : ∀ e ∈ l, g e = compare (f e) x) (h : Ascending compare (l.map f)) :
    (x ∈ l.map f → binarySearchBy g l = .ok (rankIn (l.map f) x)) ∧
      (x ∉ l.map f → binarySearchBy g l = .error (rankIn (l.map f) x)) := by
  have hmono : SearchMonotone g l := by
    have hkeys : l.Pairwise fun a b => compare (f b) x ≠ .gt → compare (f a) x = .lt :=
      pairwise_map.mp (searchMonotone_compare h x)
    refine hkeys.imp_of_mem ?_
    intro a b ha hb hab
    rw [hg a ha, hg b hb]
    exact hab
  have hcount : l.countP (fun e => g e = .lt) = rankIn (l.map f) x := by
    rw [rankIn, countP_map]
    refine countP_congr ?_
    intro e he
    simp [hg e he]
  have hfound : (∃ e ∈ l, g e = .eq) ↔ x ∈ l.map f := by
    rw [mem_map]
    refine exists_congr fun e => and_congr_right fun he => ?_
    rw [hg e he, LawfulEqOrd.compare_eq_iff_eq]
  rw [binarySearchBy_eq hmono, hcount]
  exact ⟨fun hx => if_pos (hfound.mpr hx), fun hx => if_neg fun hex => hx (hfound.mp hex)⟩

omit [LawfulEqOrd α] in
/-- So does a partition point. -/
lemma partitionPoint_keys {β : Type*} {f : β → α} {p : β → Bool} {l : List β}
    (hp : ∀ e ∈ l, p e = true ↔ compare (f e) x = .lt) (h : Ascending compare (l.map f)) :
    partitionPoint p l = rankIn (l.map f) x := by
  have hmono : l.Pairwise fun a b => p b = true → p a = true := by
    refine (pairwise_map.mp h).imp_of_mem ?_
    intro a b ha hb hab
    rw [hp a ha, hp b hb]
    exact lt_trans hab
  rw [partitionPoint_eq hmono, rankIn, countP_map]
  refine countP_congr ?_
  intro e he
  simp [hp e he]

/-! ## The sorted layout -/

/-- `slice::sort`. -/
def sortAll (l : List α) : List α := l.insertionSort fun a b => (compare a b).isLE = true

omit [TransOrd α] [LawfulEqOrd α] in
lemma sortAll_perm (l : List α) : (sortAll l).Perm l := perm_insertionSort _ l

lemma ascending_sortAll (h : l.Nodup) : Ascending compare (sortAll l) := by
  have htotal : Std.Total fun a b : α => (compare a b).isLE = true :=
    ⟨fun a b => by
      cases hab : compare a b with
      | lt | eq => simp
      | gt => exact .inr (by rw [Std.OrientedCmp.gt_iff_lt.mp hab]; rfl)⟩
  have htrans : IsTrans α fun a b : α => (compare a b).isLE = true :=
    ⟨fun _ _ _ hab hbc => Std.TransCmp.isLE_trans hab hbc⟩
  have hle := pairwise_insertionSort (fun a b : α => (compare a b).isLE = true) l
  have hne : (sortAll l).Nodup := (sortAll_perm l).nodup_iff.mpr h
  refine (hle.and hne).imp ?_
  rintro a b ⟨hab, hne⟩
  cases hc : compare a b with
  | lt => rfl
  | eq => exact absurd (eq_of_compare hc) hne
  | gt => simp [hc] at hab

/-- Every rank below the length is taken. -/
lemma exists_rankIn_eq (h : l.Nodup) {k : ℕ} (hk : k < l.length) : ∃ x ∈ l, rankIn l x = k := by
  have hlen : (sortAll l).length = l.length := (sortAll_perm l).length_eq
  have hk' : k < (sortAll l).length := by omega
  refine ⟨(sortAll l)[k], (sortAll_perm l).mem_iff.mp (getElem_mem _), ?_⟩
  rw [← rankIn_perm (sortAll_perm l), rankIn_getElem (ascending_sortAll h) hk']

end Lawful

/-! ## Merging two runs -/

/-- The two-way merge: of two items that compare equal, only the first run's is kept. -/
def mergeDedup {β : Type*} (cmp : β → β → Ordering) : List β → List β → List β
  | [], b => b
  | a, [] => a
  | x :: a, y :: b =>
    match cmp x y with
    | .lt => x :: mergeDedup cmp a (y :: b)
    | .gt => y :: mergeDedup cmp (x :: a) b
    | .eq => x :: mergeDedup cmp a b
termination_by a b => a.length + b.length

section Merge

variable {β : Type*} {cmp : β → β → Ordering} {a b : List β}

lemma mem_of_mem_mergeDedup {z : β} (h : z ∈ mergeDedup cmp a b) : z ∈ a ∨ z ∈ b := by
  fun_induction mergeDedup cmp a b with
  | case1 b => exact .inr h
  | case2 a => exact .inl h
  | case3 x a y b hc ih => grind
  | case4 x a y b hc ih => grind
  | case5 x a y b hc ih => grind

lemma map_mergeDedup {f : β → α} (h : ∀ x ∈ a, ∀ y ∈ b, cmp x y = compare (f x) (f y)) :
    (mergeDedup cmp a b).map f = mergeDedup compare (a.map f) (b.map f) := by
  fun_induction mergeDedup cmp a b with
  | case1 b => rw [map_nil, mergeDedup]
  | case2 a => cases a <;> simp [mergeDedup]
  | case3 x a y b hc ih =>
    rw [map_cons, map_cons, map_cons, mergeDedup, ← h x (by simp) y (by simp), hc,
      ih fun x' hx' => h x' (by simp [hx'])]
    rfl
  | case4 x a y b hc ih =>
    rw [map_cons, map_cons, map_cons, mergeDedup, ← h x (by simp) y (by simp), hc,
      ih fun x' hx' y' hy' => h x' hx' y' (by simp [hy'])]
    rfl
  | case5 x a y b hc ih =>
    rw [map_cons, map_cons, map_cons, mergeDedup, ← h x (by simp) y (by simp), hc,
      ih fun x' hx' y' hy' => h x' (by simp [hx']) y' (by simp [hy'])]

/-- Without common keys a merge drops nothing. -/
lemma mergeDedup_perm (h : ∀ x ∈ a, ∀ y ∈ b, cmp x y ≠ .eq) :
    (mergeDedup cmp a b).Perm (a ++ b) := by
  fun_induction mergeDedup cmp a b with
  | case1 b => simp
  | case2 a => simp
  | case3 x a y b hc ih =>
    exact (ih fun x' hx' => h x' (by simp [hx'])).cons x
  | case4 x a y b hc ih =>
    refine ((ih fun x' hx' y' hy' => h x' hx' y' (by simp [hy'])).cons y).trans ?_
    exact perm_middle.symm
  | case5 x a y b hc ih => exact absurd hc (h x (by simp) y (by simp))

lemma ascending_mergeDedup [TransOrd α] {a b : List α} (ha : Ascending compare a)
    (hb : Ascending compare b) : Ascending compare (mergeDedup compare a b) := by
  fun_induction mergeDedup (compare : α → α → Ordering) a b with
  | case1 b => exact hb
  | case2 a => exact ha
  | case3 x a y b hc ih =>
    obtain ⟨hx, ha'⟩ := pairwise_cons.mp ha
    refine pairwise_cons.mpr ⟨?_, ih ha' hb⟩
    intro z hz
    rcases mem_of_mem_mergeDedup hz with hz | hz
    · exact hx z hz
    · rcases mem_cons.mp hz with rfl | hz
      · exact hc
      · exact lt_trans hc (rel_of_pairwise_cons hb hz)
  | case4 x a y b hc ih =>
    obtain ⟨hy, hb'⟩ := pairwise_cons.mp hb
    have hyx : compare y x = .lt := gt_iff_lt.mp hc
    refine pairwise_cons.mpr ⟨?_, ih ha hb'⟩
    intro z hz
    rcases mem_of_mem_mergeDedup hz with hz | hz
    · rcases mem_cons.mp hz with rfl | hz
      · exact hyx
      · exact lt_trans hyx (rel_of_pairwise_cons ha hz)
    · exact hy z hz
  | case5 x a y b hc ih =>
    obtain ⟨hx, ha'⟩ := pairwise_cons.mp ha
    obtain ⟨hy, hb'⟩ := pairwise_cons.mp hb
    refine pairwise_cons.mpr ⟨?_, ih ha' hb'⟩
    intro z hz
    rcases mem_of_mem_mergeDedup hz with hz | hz
    · exact hx z hz
    · exact lt_of_isLE_of_lt (by rw [hc]; rfl) (hy z hz)

end Merge

end Kyzo

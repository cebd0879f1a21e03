import Kyzo.Exec.NormalStore

/-!
# Scans of a normal store

A scan over all levels yields the store's contents, an ascending list with one entry for each row,
restricted to the scanned keys; a scan over the newest level yields its admitted rows, restricted in
the same way.  Bounds on bytes are bounds on columns, and a projected probe selects the rows that
begin with it as long as every row can be walked that far.
-/

namespace Kyzo

open List Kyzo.Tuple Std

/-- The view a scan yields for a row. -/
def rowView (e : Bytes × LimiterSkip) : TupleInIter := .bytes e.1 e.2

/-- The admitted rows of a level. -/
def NormalLevel.admittedRows (l : NormalLevel) : List (Bytes × LimiterSkip) :=
  (l.rows.filter fun e => !e.2.refresh.hidesFromDelta).map fun e => (e.1, e.2.skip)

/-- **A scan of everything** is a filter of the contents. -/
theorem HoldsFlags.normalMerge_eq {levels : List NormalLevel} {total : Bytes → Option LimiterSkip}
    (h : HoldsFlags levels total) (p : Bytes → Bool) :
    normalMerge (levels.map fun l => l.rows.filter fun e => p e.1) false =
      ((contents NormalLevel.rows RowFlags.skip levels).filter fun e => p e.1).map rowView := by
  have hfilter := mergeLevels_filter h.holds.ascend_rows p
  rw [map_map] at hfilter
  have hcursors : (levels.map fun l => l.rows.filter fun e => p e.1) =
      levels.map ((fun l => l.filter fun e => p e.1) ∘ NormalLevel.rows) := rfl
  rw [normalMerge, hcursors, hfilter, contents, filter_map, map_map]
  simp only [Bool.false_and, Bool.not_false, filter_true]
  rfl

variable {l : NormalLevel}

/-- **A scan of the newest level** is a filter of its admitted rows. -/
theorem normalMerge_delta (h : KeysAscend l.rows) (p : Bytes → Bool) :
    normalMerge [l.rows.filter fun e => p e.1] true =
      (l.admittedRows.filter fun e => p e.1).map rowView := by
  rw [normalMerge, mergeLevels_singleton (h.filter _), NormalLevel.admittedRows, filter_map,
    map_map, filter_filter, filter_filter]
  simp only [Bool.true_and, Function.comp_def, Bool.and_comm]
  rfl

/-! ## Bounds -/

/-- A key lies within byte bounds. -/
def withinBounds (lower upper : Bytes) (upperInclusive : Bool) (key : Bytes) : Bool :=
  !(compare key lower == .lt) && NormalLevel.belowUpper upper upperInclusive key

section

variable (lower upper : List ScanBound) (upperInclusive : Bool) (t : Tuple)

/-- A row lies within column bounds. -/
def inBounds : Bool :=
  cmpBounds t lower != .lt &&
    if upperInclusive then cmpBounds t upper != .gt else cmpBounds t upper == .lt

lemma withinBounds_bare :
    withinBounds (bareBoundsLower lower) (bareBoundsUpper upper) upperInclusive t.bare =
      inBounds lower upper upperInclusive t := by
  have hupper : compare t.bare (bareBoundsUpper upper) = cmpBounds t upper :=
    compare_bareBoundsLower t upper
  rw [withinBounds, NormalLevel.belowUpper, hupper, compare_bareBoundsLower, inBounds]
  cases cmpBounds t lower <;> cases cmpBounds t upper <;> cases upperInclusive <;> rfl

end

lemma bareBoundsLower_value (p : Tuple) : bareBoundsLower (p.map .value) = p.bare ∧
      bareBoundsLower (p.map .value ++ [.greatest]) = p.bare ++ [0xFF] := by
  induction p with
  | nil => exact ⟨rfl, rfl⟩
  | cons v p ih =>
    obtain ⟨hlow, hhigh⟩ := ih
    constructor
    · rw [map_cons, bareBoundsLower, hlow, bare_cons]
    · rw [map_cons, cons_append, bareBoundsLower, hhigh, bare_cons, append_assoc]

lemma withinBounds_isPrefix (p t : Tuple) :
    withinBounds p.bare (p.bare ++ [0xFF]) true t.bare = decide (p <+: t) := by
  obtain ⟨hlow, hhigh⟩ := bareBoundsLower_value p
  rw [← hhigh, ← hlow]
  refine (withinBounds_bare _ _ true t).trans ?_
  rw [Bool.eq_iff_iff, decide_eq_true_iff, ← cmpBounds_isPrefix, inBounds]
  simp [bne_iff_ne]

lemma NormalLevel.slice_bounds (h : KeysAscend l.rows) (lower upper : Bytes)
    (upperInclusive : Bool) :
    l.slice (l.bounds lower upper upperInclusive) =
      l.rows.filter fun e => withinBounds lower upper upperInclusive e.1 := by
  refine slice_window (h.imp ?_) (h.imp ?_)
  · intro x y hxy hy
    rw [beq_iff_eq] at hy ⊢
    exact TransCmp.lt_trans hxy hy
  · intro x y hxy hy
    cases upperInclusive
    · rw [belowUpper, if_neg (by simp), beq_iff_eq] at hy ⊢
      exact TransCmp.lt_trans hxy hy
    · exact TransCmp.isLE_trans (by rw [hxy]; rfl) hy

/-! ## Projected probes -/

lemma NormalLevel.cmpProbe_bare {t : Tuple} (ht : t.Shallow) (probe : Tuple) :
    cmpProbe probe.length probe.bare t.bare =
      if probe.length ≤ t.length then compare (t.take probe.length) probe else .lt := by
  rw [cmpProbe, barePrefixLen_bare (ht.walkable _)]
  by_cases hle : probe.length ≤ t.length
  · rw [if_pos hle, if_pos hle]
    have htake : t.bare.take (bare (t.take probe.length)).length =
        bare (t.take probe.length) := by
      have hsplit : t.bare = bare (t.take probe.length) ++ bare (t.drop probe.length) := by
        rw [← bare_append, take_append_drop]
      rw [hsplit, take_left]
    dsimp only
    rw [htake, compare_bare]
  · rw [if_neg hle, if_neg hle]

lemma take_isLE {t u : Tuple} (h : compare t u = .lt) (n : ℕ) :
    (compare (t.take n) (u.take n)).isLE = true := by
  induction n generalizing t u with
  | zero => rfl
  | succ n ih =>
    rcases t with _ | ⟨v, t⟩
    · rcases u with _ | ⟨w, u⟩
      · cases h
      · rfl
    rcases u with _ | ⟨w, u⟩
    · cases h
    rw [compare_cons] at h
    rw [take_succ_cons, take_succ_cons, compare_cons]
    rcases hvw : compare v w
    · rfl
    · rw [hvw] at h
      exact ih h
    · rw [hvw] at h
      cases h

/-- The keys a projected probe selects. -/
def NormalLevel.selects (probe : Tuple) (key : Bytes) : Bool :=
  !(cmpProbe probe.length probe.bare key == .lt) && cmpProbe probe.length probe.bare key != .gt

lemma NormalLevel.selects_bare {t : Tuple} (ht : t.Shallow) (probe : Tuple) :
    selects probe t.bare = decide (probe <+: t) := by
  rw [selects, cmpProbe_bare ht, Bool.eq_iff_iff, decide_eq_true_iff]
  by_cases hcols : probe.length ≤ t.length
  · rw [if_pos hcols, prefix_iff_eq_take, ← compare_eq_iff, OrientedCmp.eq_comm]
    cases compare (t.take probe.length) probe <;> simp
  · have hnot : ¬ probe <+: t := fun hp => hcols hp.length_le
    rw [if_neg hcols]
    simp [hnot]

lemma NormalLevel.slice_prefixBounds (h : KeysAscend l.rows) {n : ℕ}
    (hrows : ∀ e ∈ l.rows, ∃ t : Tuple, t.bare = e.1 ∧ t.Shallow ∧ t.length = n) (row : Tuple)
    (cols : List ℕ) :
    l.slice (l.prefixBounds row cols) =
      l.rows.filter fun e => selects (projected row cols) e.1 := by
  have hlen : cols.length = (projected row cols).length := by rw [projected, length_map]
  rw [prefixBounds, hlen]
  generalize projected row cols = probe
  -- The first columns ascend with the rows, so both tests only switch off.
  have hmono : l.rows.Pairwise fun x y =>
      (cmpProbe probe.length probe.bare y.1 = .lt → cmpProbe probe.length probe.bare x.1 = .lt) ∧
      (cmpProbe probe.length probe.bare x.1 = .gt →
        cmpProbe probe.length probe.bare y.1 = .gt) := by
    refine List.Pairwise.imp_of_mem ?_ h
    intro x y hx hy hxy
    obtain ⟨t, ht, hshallow, hn⟩ := hrows x hx
    obtain ⟨u, hu, hshallow', hn'⟩ := hrows y hy
    rw [← ht, ← hu, compare_bare] at hxy
    rw [← ht, ← hu, cmpProbe_bare hshallow, cmpProbe_bare hshallow', hn, hn']
    have hle := take_isLE hxy probe.length
    by_cases hcols : probe.length ≤ n
    · rw [if_pos hcols, if_pos hcols]
      constructor
      · intro hlt
        exact TransCmp.lt_of_isLE_of_lt hle hlt
      · intro hgt
        rw [OrientedCmp.gt_iff_lt] at hgt ⊢
        exact TransCmp.lt_of_lt_of_isLE hgt hle
    · rw [if_neg hcols, if_neg hcols]
      exact ⟨id, id⟩
  refine slice_window (hmono.imp ?_) (hmono.imp ?_)
  · rintro x y ⟨hlt, -⟩ hbelow
    rw [beq_iff_eq] at hbelow ⊢
    exact hlt hbelow
  · rintro x y ⟨-, hgt⟩ hbelow
    rw [bne_iff_ne] at hbelow ⊢
    exact fun ho => hbelow (hgt ho)

end Kyzo

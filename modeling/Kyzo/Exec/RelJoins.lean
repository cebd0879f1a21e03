import Kyzo.Exec.RelRows
import Kyzo.Plan.ScanBounds

/-!
# The strategies of the operators

What the operators compute to find the rows of a tree: filters by position instead of by name, a
probe under the first columns of a scan between the bounds of its filters, a sorted run of the right
side that is searched for each left row, and the test of an anti-join.  Each lists the rows that go
together under the names of the columns.
-/

namespace Kyzo

open List Kyzo.Expr Except ScanSource ScanHandle NegRight

/-! ## Columns and positions -/

variable {row : Tuple}

/-- A projection reads the columns, all or none. -/
lemma project_eq_ok {cols : List ℕ} {out : Tuple} :
    project row cols = .ok out ↔ gather row cols = some out := by
  rw [project, mapM_eq_ok_iff, gather_eq_some, ← forall₂_eq_map, ← forall₂_eq_map]
  refine forall₂_congr_iff fun c v => ?_
  unfold column
  cases row[c]? <;> simp

lemma exists_project (row : Tuple) (cols : List ℕ) (h : ∀ c ∈ cols, c < row.length) :
    ∃ out, project row cols = .ok out := by
  obtain ⟨out, hout⟩ := exists_gather h
  exact ⟨out, project_eq_ok.mpr hout⟩

variable {frame : List Symbol}

namespace Expr

variable {s : Symbol} {i : ℕ}

lemma getElem?_of_position (h : position s frame = some i) : frame[i]? = some s := by
  induction frame generalizing i with
  | nil => cases h
  | cons b bs ih =>
    simp only [position] at h
    split at h
    · cases h
      exact ih ‹_›
    · split at h
      · cases h
        rw [getElem?_cons_zero, ‹b = s›]
      · cases h

/-- Where no name repeats, the last position of a name is the first. -/
lemma idxOf_of_position (hnodup : frame.Nodup) (h : position s frame = some i) :
    frame.idxOf s = i := by
  obtain ⟨hi, rfl⟩ := List.getElem_of_getElem? (getElem?_of_position h)
  exact hnodup.idxOf_getElem i hi

end Expr

variable {i : ℕ}

/-! ## Join columns -/

/-- The positions of join keys. -/
def KeyIndices (left right : List Symbol) (keys : List (Symbol × Symbol)) (indices : List (ℕ × ℕ)) :
    Prop :=
  Forall₂ (fun k i => position k.1 left = some i.1 ∧ position k.2 right = some i.2)
    keys indices

lemma frameIndex_eq_ok {key : Symbol} {message : String} :
    frameIndex frame key message = .ok i ↔ position key frame = some i := by
  unfold frameIndex
  cases position key frame <;> simp

variable {left right : List Symbol} {keys : List (Symbol × Symbol)} {indices : List (ℕ × ℕ)}

/-- `join_indices` pairs the positions of the keys. -/
lemma joinIndices_eq_ok {j : Joiner} : j.joinIndices left right = .ok indices ↔
      KeyIndices left right (j.leftKeys.zip j.rightKeys) indices := by
  unfold Joiner.joinIndices KeyIndices
  rw [mapM_eq_ok_iff, ← forall₂_eq_map]
  refine forall₂_congr_iff fun k x => ?_
  simp only [bind_eq_ok, frameIndex_eq_ok]
  constructor
  · rintro ⟨l, hl, r, hr, hx⟩
    cases hx
    exact ⟨hl, hr⟩
  · exact fun h => ⟨x.1, h.1, x.2, h.2, rfl⟩

/-- Keys of both sides have positions. -/
lemma exists_keyIndices (left right : List Symbol) (keys : List (Symbol × Symbol))
    (h : ∀ k ∈ keys, k.1 ∈ left ∧ k.2 ∈ right) : ∃ indices, KeyIndices left right keys indices := by
  induction keys with
  | nil => exact ⟨[], .nil⟩
  | cons k keys ih =>
    obtain ⟨⟨hl, hr⟩, hrest⟩ := forall_mem_cons.mp h
    obtain ⟨i, hi⟩ := exists_position.mpr hl
    obtain ⟨j, hj⟩ := exists_position.mpr hr
    obtain ⟨indices, hindices⟩ := ih hrest
    exact ⟨(i, j) :: indices, .cons ⟨hi, hj⟩ hindices⟩

namespace KeyIndices

section

variable (h : KeyIndices left right keys indices)

include h

lemma lt : ∀ x ∈ indices, x.1 < left.length ∧ x.2 < right.length :=
  (forall_mem_iff_of_forall₂ h fun _ _ hk =>
    iff_of_true trivial ⟨position_lt hk.1, position_lt hk.2⟩).mp fun _ _ => trivial

/-- Rows agree on the keys as they agree on the positions. -/
lemma agree_iff {l r : Tuple} (hl : l.length = left.length) (hr : r.length = right.length) :
    Agree keys left right l r ↔ ∀ x ∈ indices, l[x.1]? = r[x.2]? := by
  refine forall_mem_iff_of_forall₂ h fun k x hk => ?_
  rw [rowEnv_eq hl, rowEnv_eq hr, hk.1, hk.2, Option.bind_some, Option.bind_some]

/-- The same for the keys among the first right columns. -/
lemma agree_filter_iff (hnodup : right.Nodup) {l r : Tuple}
    (hl : l.length = left.length) (hr : r.length = right.length) (n : ℕ) :
    Agree (keys.filter (·.2 ∈ right.take n)) left right l r ↔
      ∀ x ∈ indices, x.2 < n → l[x.1]? = r[x.2]? := by
  simp only [Agree, mem_filter, decide_eq_true_eq, and_imp]
  refine forall_mem_iff_of_forall₂ h fun k x hk => ?_
  have hmem : k.2 ∈ right := mem_of_getElem? (getElem?_of_position hk.2)
  rw [mem_take_iff_idxOf_lt hmem, idxOf_of_position hnodup hk.2, rowEnv_eq hl, rowEnv_eq hr, hk.1,
    hk.2, Option.bind_some, Option.bind_some]

lemma gather_right : gather right (indices.map Prod.snd) = some (keys.map Prod.snd) := by
  rw [gather_eq_some, map_map, map_map]
  exact forall₂_eq_map.mp (h.flip.imp fun x k hk => getElem?_of_position hk.2)

end

/-- The keys lead if their right positions are the first ones in some order. -/
lemma joinIsPrefix_iff_perm :
    joinIsPrefix indices = true ↔ (indices.map Prod.snd).Perm (range indices.length) := by
  rw [joinIsPrefix, beq_iff_eq]
  constructor
  · intro h
    rw [← h]
    exact (perm_insertionSort _ _).symm
  · intro h
    have hsort := map_insertionSort_eq_range id (by simpa using h)
    simpa using hsort

/-- The keys lead if they name the first right columns in some order. -/
lemma joinIsPrefix_iff (h : KeyIndices left right keys indices) (hnodup : right.Nodup) :
    joinIsPrefix indices = true ↔ (keys.map Prod.snd).Perm (right.take keys.length) := by
  have hlen : keys.length = indices.length := h.length_eq
  rw [joinIsPrefix_iff_perm, hlen]
  constructor
  · intro hperm
    obtain ⟨out, hout, hkeys⟩ := gather_perm hperm h.gather_right
    have hle : indices.length ≤ right.length := by
      by_contra hlt
      have hmem : right.length ∈ indices.map Prod.snd := by
        rw [hperm.mem_iff, mem_range]
        omega
      obtain ⟨x, hx, hxlen⟩ := mem_map.mp hmem
      exact absurd (h.lt x hx).2 (by omega)
    rw [gather_range hle] at hout
    cases hout
    exact hkeys
  · intro hperm
    have hle : indices.length ≤ right.length := by
      have := hperm.length_eq
      rw [length_map, length_take] at this
      omega
    have hright : indices.map Prod.snd = (keys.map Prod.snd).map right.idxOf := by
      rw [map_map]
      exact forall₂_eq_map.mp (h.flip.imp fun x k hk => (idxOf_of_position hnodup hk.2).symm)
    rw [hright]
    refine (hperm.map right.idxOf).trans (Perm.of_eq ?_)
    refine ext_getElem (by simp [hle]) fun i hi hi' => ?_
    rw [getElem_map, getElem_take, getElem_range]
    exact hnodup.idxOf_getElem i _

/-- A right row begins with the probed values where it agrees with the left row. -/
lemma prefix_iff (hfront : joinIsPrefix indices = true) {l r p : Tuple}
    (hp : project l (prefixColumns indices) = .ok p) (n : ℕ) :
    p.take n <+: r ↔ ∀ x ∈ indices, x.2 < n → l[x.1]? = r[x.2]? := by
  set sorted := indices.insertionSort fun a b => a.2 ≤ b.2 with hsorted
  have hperm : sorted.Perm indices := perm_insertionSort _ _
  have hsnd : sorted.map Prod.snd = range indices.length :=
    map_insertionSort_eq_range Prod.snd (joinIsPrefix_iff_perm.mp hfront)
  have hread := project_eq_ok.mp hp
  -- The `i`-th column of the prefix is the left column of the key whose right column is `i`.
  have hcol : ∀ x ∈ indices, p[x.2]? = l[x.1]? := by
    intro x hx
    have hi := getElem?_of_map_eq_range hsnd (hperm.mem_iff.mpr hx)
    exact getElem?_of_gather hread (by rw [prefixColumns, getElem?_map, hi]; rfl)
  have hplen : p.length = indices.length := by
    rw [← length_gather hread, prefixColumns, length_map, hperm.length_eq]
  have hright : ∀ {i}, i ∈ indices.map Prod.snd ↔ i < p.length := by
    intro i
    rw [(joinIsPrefix_iff_perm.mp hfront).mem_iff, mem_range, hplen]
  rw [prefix_iff_getElem?]
  constructor
  · intro h x hx hxn
    have hlt := hright.mp (mem_map_of_mem hx)
    rw [← hcol x hx, h x.2 (by rw [length_take]; omega), getElem_take, getElem?_eq_getElem hlt]
  · intro h i hi
    rw [length_take] at hi
    obtain ⟨x, hx, rfl⟩ := mem_map.mp (hright.mpr (by omega : i < p.length))
    rw [getElem_take, ← h x hx (by omega), ← hcol x hx, getElem?_eq_getElem]

end KeyIndices

/-! ## Filters -/

variable {filters : List Expr}

section

variable {lib : Library} {filters' : List Expr}

lemma fillExprs_eq_ok : RelAlgebra.fillExprs frame filters = .ok filters' ↔
    filters.mapM (fillBindingIndices frame) = .ok filters' :=
  mapError_eq_ok

/-- The rows that pass, if every row decides the filters. -/
lemma passing_enumerates (hfill : RelAlgebra.fillExprs frame filters = .ok filters')
    {rows : List Tuple} (hwidth : ∀ row ∈ rows, row.length = frame.length) :
    Enumerates (passing lib filters' rows) (∀ row ∈ rows, Decides lib frame filters row)
      (fun row => row ∈ rows ∧ Passes lib frame filters row) := by
  have hrow : ∀ row ∈ rows, Enumerates (do
      if ← (filtersWith lib (readAt row) filters').mapError PlanError.eval then
        return [row]
      else return []) (Decides lib frame filters row)
      (fun r => r = row ∧ Passes lib frame filters row) := by
    intro row hmem
    rw [filtersWith_fill (hwidth row hmem) (fillExprs_eq_ok.mp hfill)]
    have hpasses : Passes lib frame filters row ↔
        filtersWith lib (readNamed (rowEnv frame row)) filters = .ok true :=
      filtersWith_eq_true.symm
    rw [hpasses, Decides]
    cases hrun : filtersWith lib (readNamed (rowEnv frame row)) filters with
    | error e => exact Enumerates.error _ fun ⟨_, h⟩ => by cases h
    | ok b =>
      cases b with
      | true =>
        exact (Enumerates.ok [row]).congr (iff_of_true trivial ⟨true, rfl⟩) fun _ r => by simp
      | false =>
        exact (Enumerates.ok []).congr (iff_of_true trivial ⟨false, rfl⟩) fun _ r => by simp
  exact ((Enumerates.ok rows).collect hrow).congr (by simp) fun _ r => by aesop

lemma passing_nil (rows : List Tuple) : passing lib [] rows = .ok rows := by
  have hrows : ∀ row ∈ rows, (do
      if ← (filtersWith lib (readAt row) []).mapError PlanError.eval then
        return [row]
      else return [] : Except PlanError (List Tuple)) = .ok [row] := fun _ _ => rfl
  rw [passing, collectM, mapM_eq_ok hrows]
  change ok (rows.map fun row => [row]).flatten = _
  rw [← flatMap_def, flatMap_singleton']

/-- One conjunction filters as its conjuncts do one by one. -/
lemma refine_eq_passing (filters : List Expr) (rows : List Tuple) :
    refine lib filters rows = passing lib filters rows := by
  match filters with
  | [] => exact (passing_nil rows).symm
  | [f] => rfl
  | f :: g :: fs =>
    have hand : ∀ row, filtersWith lib (readAt row) [.lazy .and (f :: g :: fs)] =
        filtersWith lib (readAt row) (f :: g :: fs) := by
      intro row
      rw [← predWith_and (f :: g :: fs), filtersWith]
      cases (lazy .and (f :: g :: fs)).predWith lib (readAt row) with
      | error e => rfl
      | ok b => cases b <;> rfl
    simp [refine, conjunctionPred, passing, hand]

end

/-! ## Bounds -/

namespace Expr

variable {target : Symbol} {e e' : Expr}

lemma isVar_fill (target : Symbol) (h : e.fillBindingIndices frame = .ok e') :
    e'.isVar target = e.isVar target ∧ e'.getConst = e.getConst := by
  cases e with
  | binding var _ =>
    simp only [fillBindingIndices] at h
    split at h
    · cases h
      exact ⟨rfl, rfl⟩
    · cases h
  | const _ =>
    cases h
    exact ⟨rfl, rfl⟩
  | apply _ _ | lazy _ _ | cond _ =>
    obtain ⟨_, -, h⟩ := bind_ok h
    cases h
    exact ⟨rfl, rfl⟩
  | unboundApply _ _ => cases h

/-- A resolved filter bounds what the named one does. -/
lemma extractBound_fill (h : e.fillBindingIndices frame = .ok e') :
    e'.extractBound target = e.extractBound target := by
  cases e with
  | binding var _ =>
    simp only [fillBindingIndices] at h
    split at h
    · cases h
      rfl
    · cases h
  | const _ =>
    cases h
    rfl
  | lazy _ _ | cond _ =>
    obtain ⟨_, -, h⟩ := bind_ok h
    cases h
    rfl
  | unboundApply _ _ => cases h
  | apply op args =>
    obtain ⟨args', hargs, h⟩ := bind_ok h
    cases h
    rcases args with _ | ⟨a, _ | ⟨b, args⟩⟩
    · cases hargs
      rfl
    · obtain ⟨a', -, hargs⟩ := bind_ok hargs
      obtain ⟨rest, hrest, hargs⟩ := bind_ok hargs
      cases hargs
      cases hrest
      rfl
    · obtain ⟨a', ha, hargs⟩ := bind_ok hargs
      obtain ⟨rest, hrest, hargs⟩ := bind_ok hargs
      obtain ⟨b', hb, hrest⟩ := bind_ok hrest
      obtain ⟨rest', -, hrest⟩ := bind_ok hrest
      cases hrest
      cases hargs
      obtain ⟨hva, hca⟩ := isVar_fill target ha
      obtain ⟨hvb, hcb⟩ := isVar_fill target hb
      simp [extractBound, comparisonRange, prefixRange, constAgainst, hva, hvb, hca, hcb]

lemma columnRange_fill {fs fs' : List Expr} (h : fs.mapM (fillBindingIndices frame) = .ok fs') :
    columnRange fs' target = columnRange fs target := by
  unfold columnRange
  generalize ValueRange.all = r
  induction fs generalizing fs' r with
  | nil =>
    cases h
    rfl
  | cons f fs ih =>
    obtain ⟨f', fs', hf, hfs, rfl⟩ := mapM_cons_eq_ok h
    simp only [foldlM_cons, extractBound_fill hf, ih hfs]

end Expr

/-- So does a list of filters. -/
lemma scanBounds_fill {fs fs' : List Expr}
    (h : RelAlgebra.fillExprs frame fs = .ok fs') (symbols : List Symbol) :
    scanBounds fs' symbols = scanBounds fs symbols := by
  have hfill := fillExprs_eq_ok.mp h
  have hempty : fs'.isEmpty = fs.isEmpty := by
    cases fs with
    | nil =>
      cases hfill
      rfl
    | cons f fs =>
      obtain ⟨f', fs', -, -, rfl⟩ := mapM_cons_eq_ok hfill
      rfl
  have hrange : columnRange fs' = columnRange fs := by
    funext target
    exact columnRange_fill hfill
  rw [scanBounds, scanBounds, hempty, computeBounds, computeBounds, hrange]

variable {bindings : List Symbol} {source : ScanSource}

section

variable {lib : Library} {lower upper : List ScanBound} {n : ℕ}

lemma length_scanBounds {symbols : List Symbol}
    (h : scanBounds filters symbols = some (lower, upper)) :
    lower.length = symbols.length ∧ upper.length = symbols.length := by
  unfold scanBounds at h
  split at h
  · cases h
  · split at h
    · rename_i lo hi hbounds
      split at h
      · obtain ⟨ranges, hranges, hpair⟩ := bind_ok hbounds
        cases hpair
        cases h
        simp [mapM_length hranges]
      · cases h
    · cases h

variable {columns : List Symbol}

/-- Without bounds no row is left out. -/
lemma inScan_of_none (h : scanBounds filters columns = none) : InScan columns filters n row := by
  intro lower upper hsome
  rw [h] at hsome
  cases hsome

lemma inScan_iff (h : scanBounds filters columns = some (lower, upper)) :
    InScan columns filters n row ↔ AtOrAbove (row.drop n) lower ∧ AtOrBelow (row.drop n) upper := by
  refine ⟨fun hscan => hscan lower upper h, fun hcols lower' upper' hsome => ?_⟩
  rw [h] at hsome
  cases hsome
  exact hcols

end

/-! ## Probes -/

/-- Between bounds under a prefix: the prefix, and the bounds on the rest. -/
lemma between_iff (p r : Tuple) (lower upper : List ScanBound) :
    AtOrAbove r (p.map .value ++ lower) ∧ AtOrBelow r (p.map .value ++ upper) ↔
      p <+: r ∧ AtOrAbove (r.drop p.length) lower ∧ AtOrBelow (r.drop p.length) upper := by
  rw [between_prefixed]
  constructor
  · rintro ⟨rest, rfl, habove, hbelow⟩
    rw [drop_left]
    exact ⟨prefix_append p rest, habove, hbelow⟩
  · rintro ⟨⟨rest, rfl⟩, habove, hbelow⟩
    rw [drop_left] at habove hbelow
    exact ⟨rest, rfl, habove, hbelow⟩

lemma scanBounds_nil (filters : List Expr) : scanBounds filters [] = none := by
  unfold scanBounds
  split
  · rfl
  · simp [computeBounds, pure, Except.pure, bind, Except.bind]

/-- The comparison of two rows that have the columns. -/
lemma agrees_eq_ok {l found : Tuple} (h : ∀ x ∈ indices, x.1 < l.length ∧ x.2 < found.length) :
    agrees l found indices = .ok (decide (∀ x ∈ indices, l[x.1]? = found[x.2]?)) := by
  induction indices with
  | nil => simp [agrees]
  | cons x indices ih =>
    obtain ⟨⟨hl, hr⟩, hrest⟩ := forall_mem_cons.mp h
    have hleft : column l x.1 = .ok l[x.1] := by rw [column, getElem?_eq_getElem hl]
    have hright : column found x.2 = .ok found[x.2] := by
      rw [column, getElem?_eq_getElem hr]
    simp only [agrees, hleft, hright, ih hrest, bind, Except.bind, forall_mem_cons,
      getElem?_eq_getElem hl, getElem?_eq_getElem hr, Option.some.injEq]
    by_cases heq : l[x.1] = found[x.2]
    · simp [heq]
    · simp [heq, pure, Except.pure]

section

variable {l p : Tuple} (h : KeyIndices left right keys indices) (hl : l.length = left.length)
include h hl

/-- A left row has values to probe with, of every length. -/
lemma KeyIndices.exists_prefix :
    ∃ p, project l (prefixColumns indices) = .ok p ∧ p.length = indices.length ∧
      ∀ k, project l ((prefixColumns indices).take k) = .ok (p.take k) := by
  have hcols : ∀ c ∈ prefixColumns indices, c < l.length := by
    intro c hc
    obtain ⟨x, hx, rfl⟩ := mem_map.mp hc
    rw [hl]
    exact (h.lt x ((perm_insertionSort _ _).mem_iff.mp hx)).1
  obtain ⟨p, hp⟩ := exists_project _ _ hcols
  have hread := project_eq_ok.mp hp
  refine ⟨p, hp, ?_, fun k => project_eq_ok.mpr (gather_take hread k)⟩
  rw [← length_gather hread, prefixColumns, length_map, length_insertionSort]

/-- Probing with all values finds the rows that agree. -/
lemma KeyIndices.prefix_iff_agree
    (hfront : joinIsPrefix indices = true) (hp : project l (prefixColumns indices) = .ok p)
    (hplen : p.length = indices.length) {r : Tuple} (hr : r.length = right.length) :
    p <+: r ↔ Agree keys left right l r := by
  have htake := KeyIndices.prefix_iff (r := r) hfront hp indices.length
  rw [← hplen, take_length] at htake
  rw [htake, h.agree_iff hl hr]
  refine forall₂_congr fun x hx => ?_
  have hlt : x.2 < p.length := by
    have hmem := (KeyIndices.joinIsPrefix_iff_perm.mp hfront).mem_iff.mp
      (mem_map_of_mem hx)
    rw [hplen]
    exact mem_range.mp hmem
  exact ⟨fun hx => hx hlt, fun hx _ => hx⟩

end

variable {rows : List Tuple}

section

variable {rd : PlanReads} {l : Tuple}

/-- A probe by leading keys lists the rows that agree, between the bounds. -/
lemma probeKeys_enumerates {h : ScanHandle} (hnodup : bindings.Nodup)
    (hwidth : ∀ r ∈ rows, r.length = bindings.length)
    (hkeys : KeyIndices left bindings keys indices) (hfront : joinIsPrefix indices = true)
    (hl : l.length = left.length) :
    Enumerates (probeKeys h bindings filters indices rows l) True (fun r => r ∈ rows ∧
      Agree (keys.filter (·.2 ∈ bindings.take h.keyLen)) left bindings l r ∧
      InScan (h.keysFrom bindings indices.length) filters indices.length r) := by
  obtain ⟨p, hp, hplen, htake⟩ := hkeys.exists_prefix hl
  have hagree : ∀ r ∈ rows, (p.take h.keyLen <+: r ↔
      Agree (keys.filter (·.2 ∈ bindings.take h.keyLen)) left bindings l r) := fun r hr => by
    rw [KeyIndices.prefix_iff hfront hp, hkeys.agree_filter_iff hnodup hl (hwidth r hr)]
  unfold probeKeys
  cases hbounds : scanBounds filters (h.keysFrom bindings indices.length) with
  | none =>
    rw [htake]
    refine .filter fun r hr => ?_
    rw [decide_eq_true_iff, hagree r hr, and_iff_left (inScan_of_none hbounds)]
  | some bounds =>
    obtain ⟨lower, upper⟩ := bounds
    rw [hp]
    have hfits : indices.length ≤ h.keyLen ∧ h.keyLen ≤ bindings.length := by
      by_contra hnot
      rw [keysFrom, if_neg hnot, scanBounds_nil] at hbounds
      cases hbounds
    have hlen := length_scanBounds hbounds
    rw [keysFrom, if_pos hfits, length_drop, length_take] at hlen
    refine .filter fun r hr => ?_
    have hrlen := hwidth r hr
    have hrtake : (r.take h.keyLen).length = h.keyLen := by
      rw [length_take]
      omega
    have hin : inBounds (p.map .value ++ lower) (p.map .value ++ upper ++ [.greatest]) true
        (r.take h.keyLen) = true ↔
        p <+: r ∧ AtOrAbove (r.drop p.length) lower ∧ AtOrBelow (r.drop p.length) upper := by
      rw [inBounds, if_pos rfl, Bool.and_eq_true, bne_iff_ne, bne_iff_ne, cmpBounds_ne_lt,
        cmpBounds_ne_gt (.inl rfl), between_prefixed,
        ← columns_of_suffix (r.drop h.keyLen) (by omega) (by omega),
        take_append_drop, ← between_prefixed, between_iff]
    have hfull : p.take h.keyLen = p := take_of_length_le (by omega)
    have hagree := hagree r hr
    rw [hfull] at hagree
    rw [hin, hagree, hplen, inScan_iff hbounds]

/-- **A probe finds the rows that go with a left row** and lie in the bounds of the filters. -/
theorem probe_enumerates (filters : List Expr) (hsource : rd.scanRows source = .ok rows)
    (hnodup : bindings.Nodup) (hwidth : ∀ r ∈ rows, r.length = bindings.length)
    (hkeys : KeyIndices left bindings keys indices) (hfront : joinIsPrefix indices = true)
    (hl : l.length = left.length) :
    Enumerates (probe source bindings filters indices rows l) True (fun r => r ∈ rows ∧
      Agree (source.probedKeys bindings keys) left bindings l r ∧
      InScan (source.boundColumns bindings indices.length) filters indices.length r) := by
  obtain ⟨p, hp, hplen, htake⟩ := hkeys.exists_prefix hl
  have hagree : ∀ r ∈ rows, (p <+: r ↔ Agree keys left bindings l r) := fun r hr =>
    hkeys.prefix_iff_agree hl hfront hp hplen (hwidth r hr)
  cases source with
  | storedWithValidity h _ => exact probeKeys_enumerates hnodup hwidth hkeys hfront hl
  | tempStore key occurrence =>
    unfold probe
    rw [hp]
    dsimp only [probedKeys, boundColumns, bind, Except.bind]
    cases hbounds : scanBounds filters (bindings.drop indices.length) with
    | none =>
      refine .filter fun r hr => ?_
      rw [decide_eq_true_iff, hagree r hr, and_iff_left (inScan_of_none hbounds)]
    | some bounds =>
      obtain ⟨lower, upper⟩ := bounds
      have hlen := length_scanBounds hbounds
      rw [length_drop] at hlen
      refine .filter fun r hr => ?_
      have hrlen := hwidth r hr
      have hin : inBounds (p.map .value ++ lower) (p.map .value ++ upper) true r = true ↔
          p <+: r ∧ AtOrAbove (r.drop p.length) lower ∧ AtOrBelow (r.drop p.length) upper := by
        rw [inBounds, if_pos rfl, Bool.and_eq_true, bne_iff_ne, bne_iff_ne, cmpBounds_ne_lt,
          ← append_nil (p.map ScanBound.value ++ upper), cmpBounds_ne_gt (.inr ⟨rfl, ?_⟩),
          between_iff]
        rw [length_append, length_map]
        omega
      rw [hin, hagree r hr, hplen, inScan_iff hbounds]
  | stored h =>
    unfold probe
    dsimp only [probedKeys, boundColumns]
    by_cases hcover : h.keyLen ≤ indices.length
    · -- The key is covered: there is at most one row, and it is checked in full.
      rw [if_pos hcover, htake]
      cases hsource
      have hscan : ∀ r, InScan (h.keysFrom bindings indices.length) filters indices.length r := by
        intro r
        refine inScan_of_none ?_
        have hempty : h.keysFrom bindings indices.length = [] := by
          unfold keysFrom
          split
          · exact drop_eq_nil_of_le (by rw [length_take]; omega)
          · rfl
        rw [hempty, scanBounds_nil]
      have hkey : ∀ r : Tuple, p <+: r → p.take h.keyLen <+: r := fun r hr =>
        IsPrefix.trans (by exact take_prefix _ _) hr
      dsimp only [bind, Except.bind]
      cases hfind : (rd.current h).find? (fun r => decide (p.take h.keyLen <+: r)) with
      | none =>
        refine (Enumerates.ok []).congr Iff.rfl fun _ r => ?_
        refine iff_of_false (not_mem_nil) ?_
        rintro ⟨hr, hag, -⟩
        have := find?_eq_none.mp hfind r hr
        rw [decide_eq_true_iff] at this
        exact this (hkey r ((hagree r hr).mpr hag))
      | some found =>
        have hmem := mem_of_find?_eq_some hfind
        have hfound : p.take h.keyLen <+: found := by
          have := find?_some hfind
          rwa [decide_eq_true_iff] at this
        have hrange : ∀ x ∈ indices, x.1 < l.length ∧ x.2 < found.length := by
          rw [hl, hwidth found hmem]
          exact hkeys.lt
        -- The row that agrees on all columns is the one with the key.
        have honly : ∀ r ∈ rd.current h, Agree keys left bindings l r → r = found := by
          intro r hr hag
          refine rd.current_unique h r hr found hmem ?_
          have hkeylen : (p.take h.keyLen).length = h.keyLen := by
            rw [length_take]
            omega
          have h1 := prefix_iff_eq_take.mp (hkey r ((hagree r hr).mpr hag))
          have h2 := prefix_iff_eq_take.mp hfound
          rw [hkeylen] at h1 h2
          rw [← h1, ← h2]
        dsimp only
        rw [agrees_eq_ok hrange]
        have hiff := hkeys.agree_iff hl (hwidth found hmem)
        by_cases hall : ∀ x ∈ indices, l[x.1]? = found[x.2]?
        · rw [decide_eq_true hall]
          refine (Enumerates.ok [found]).congr Iff.rfl fun _ r => ?_
          rw [mem_singleton]
          constructor
          · rintro rfl
            exact ⟨hmem, hiff.mpr hall, hscan r⟩
          · rintro ⟨hr, hag, -⟩
            exact honly r hr hag
        · rw [decide_eq_false hall]
          refine (Enumerates.ok []).congr Iff.rfl fun _ r => ?_
          refine iff_of_false not_mem_nil ?_
          rintro ⟨hr, hag, -⟩
          obtain rfl := honly r hr hag
          exact hall (hiff.mp hag)
    · rw [if_neg hcover]
      refine (probeKeys_enumerates hnodup hwidth hkeys hfront hl).congr Iff.rfl fun _ r => ?_
      refine and_congr_right fun hr => and_congr_left fun _ => ?_
      rw [← hagree r hr, hkeys.agree_filter_iff hnodup hl (hwidth r hr),
        ← KeyIndices.prefix_iff hfront hp, take_of_length_le (by omega)]

end

/-! ## The sorted run -/

/-- Keys read off two rows are equal where the rows agree. -/
lemma gather_eq_gather {l r a b : Tuple} (ha : gather l (indices.map Prod.fst) = some a)
    (hb : gather r (indices.map Prod.snd) = some b) : a = b ↔ ∀ x ∈ indices, l[x.1]? = r[x.2]? := by
  rw [gather_eq_some, map_map] at ha hb
  rw [← (map_injective_iff.mpr (Option.some_injective _)).eq_iff, ← ha, ← hb]
  exact map_inj_left

lemma KeyIndices.nodup_right (h : KeyIndices left right keys indices)
    (hnodup : (keys.map Prod.snd).Nodup) : (indices.map Prod.snd).Nodup := by
  refine .of_map (right[·]?) ?_
  rw [gather_eq_some.mp h.gather_right]
  exact hnodup.map (Option.some_injective _)

section

variable {lefts rights : List Tuple}

lemma KeyIndices.exists_left (h : KeyIndices left right keys indices) {l : Tuple}
    (hl : l.length = left.length) : ∃ key, project l (indices.map Prod.fst) = .ok key := by
  refine exists_project _ _ fun c hc => ?_
  obtain ⟨x, hx, rfl⟩ := mem_map.mp hc
  rw [hl]
  exact (h.lt x hx).1

lemma KeyIndices.eq_iff_agree (h : KeyIndices left right keys indices) {l r key val : Tuple}
    (hl : l.length = left.length) (hr : r.length = right.length)
    (hkey : project l (indices.map Prod.fst) = .ok key)
    (hval : gather r (indices.map Prod.snd) = some val) :
    key = val ↔ Agree keys left right l r := by
  rw [gather_eq_gather (project_eq_ok.mp hkey) hval, h.agree_iff hl hr]

/-- **The sorted run joins**: each left row with the right rows that agree with it on the keys. -/
theorem materializedJoin_enumerates (hkeys : KeyIndices left right keys indices)
    (hnodup : (keys.map Prod.snd).Nodup) (hlefts : ∀ l ∈ lefts, l.length = left.length)
    (hrights : ∀ r ∈ rights, r.length = right.length) :
    Enumerates (materializedJoin indices right.length rights lefts) True
      (fun row => ∃ l, l ∈ lefts ∧ ∃ r ∈ rights, Agree keys left right l r ∧ l ++ r = row) := by
  set order := storeOrder (indices.map Prod.snd) right.length with horder
  have hperm : order.Perm (range right.length) := by
    refine storeOrder_perm (hkeys.nodup_right hnodup) fun c hc => ?_
    obtain ⟨x, hx, rfl⟩ := mem_map.mp hc
    exact (hkeys.lt x hx).2
  obtain ⟨stored, hstored⟩ := mapM_exists
    fun r hr => exists_project _ _ fun c hc => by
      rw [hrights r hr]
      exact mem_range.mp (hperm.mem_iff.mp hc)
  have hstoredMem := mapM_mem hstored
  set run := sortAll stored.dedup with hrun
  have hmemRun : ∀ s, s ∈ run ↔ s ∈ stored := fun s => by
    rw [(sortAll_perm _).mem_iff, mem_dedup]
  have hsorted : run.Pairwise fun a b =>
      (compare (a.take indices.length) (b.take indices.length)).isLE = true :=
    (ascending_sortAll (nodup_dedup stored)).imp fun hab => take_isLE hab _
  -- A stored row starts with the join columns of the row it was made from, and gives it back.
  have hback : ∀ r ∈ rights, ∀ s, project r order = .ok s →
      gather r (indices.map Prod.snd) = some (s.take indices.length) ∧
        project s (invertOrder order) = .ok r := by
    intro r hr s hs
    have hgather := project_eq_ok.mp hs
    refine ⟨?_, project_eq_ok.mpr (gather_invertOrder (hrights r hr ▸ hperm) hgather)⟩
    have htake := gather_take hgather indices.length
    rwa [horder, storeOrder, take_left' (length_map _)] at htake
  have hrow : ∀ l ∈ lefts, Enumerates (do
      let key ← project l (indices.map Prod.fst)
      let found ← (equalRun (fun s : Tuple => s.take indices.length) key run).mapM
        (project · (invertOrder order))
      return found.map (l ++ ·)) True
      (fun row => ∃ r ∈ rights, Agree keys left right l r ∧ l ++ r = row) := by
    intro l hl
    have hllen := hlefts l hl
    obtain ⟨key, hkey⟩ := hkeys.exists_left hllen
    have hagree : ∀ r ∈ rights, ∀ s, project r order = .ok s →
        (s.take indices.length = key ↔ Agree keys left right l r) := fun r hr s hs =>
      eq_comm.trans (hkeys.eq_iff_agree hllen (hrights r hr) hkey (hback r hr s hs).1)
    have hsplit : ∀ s ∈ run, ∃ r ∈ rights, project r order = .ok s := fun s hs =>
      hstoredMem.2 s ((hmemRun s).mp hs)
    rw [hkey]
    dsimp only [bind, Except.bind]
    rw [equalRun_eq hsorted]
    refine (((Enumerates.ok _).mapM fun s hs => ?_).map (l ++ ·)).congr Iff.rfl fun _ row => ?_
    · obtain ⟨r, hr, hrs⟩ := hsplit s (mem_filter.mp hs).1
      exact ⟨r, (hback r hr s hrs).2⟩
    constructor
    · rintro ⟨r, ⟨s, hs, hsr⟩, rfl⟩
      obtain ⟨hsrun, hskey⟩ := mem_filter.mp hs
      obtain ⟨r', hr', hrs⟩ := hsplit s hsrun
      obtain rfl : r' = r := ok.inj ((hback r' hr' s hrs).2.symm.trans hsr)
      exact ⟨r', hr', (hagree r' hr' s hrs).mp (decide_eq_true_iff.mp hskey), rfl⟩
    · rintro ⟨r, hr, hag, rfl⟩
      obtain ⟨s, hs, hrs⟩ := hstoredMem.1 r hr
      refine ⟨r, ⟨s, mem_filter.mpr ⟨(hmemRun s).mpr hs, ?_⟩, (hback r hr s hrs).2⟩, rfl⟩
      exact decide_eq_true ((hagree r hr s hrs).mpr hag)
  unfold materializedJoin
  dsimp only
  rw [hstored]
  exact ((Enumerates.ok lefts).collect hrow).congr (by simp) fun _ row => Iff.rfl

end

/-! ## Anti-joins -/

section

variable {rd : PlanReads} {right : NegRight}

section

variable {names : List Symbol} (hkeys : KeyIndices left names keys indices)
include hkeys

/-- The test against the keys of all right rows. -/
lemma among_spec (hwidth : ∀ r ∈ rows, r.length = names.length) :
    ∃ vals, rows.mapM (project · (indices.map Prod.snd)) = .ok vals ∧
      ∀ l : Tuple, l.length = left.length → ∃ b,
        (project l (indices.map Prod.fst)).bind (fun key => .ok (decide (key ∈ vals))) = .ok b ∧
        (b = true ↔ ∃ r ∈ rows, Agree keys left names l r) := by
  obtain ⟨vals, hvals⟩ := mapM_exists
    fun r hr => exists_project _ _ fun c hc => by
      obtain ⟨x, hx, rfl⟩ := mem_map.mp hc
      rw [hwidth r hr]
      exact (hkeys.lt x hx).2
  obtain ⟨hin, hfrom⟩ := mapM_mem hvals
  refine ⟨vals, hvals, fun l hl => ?_⟩
  obtain ⟨key, hkey⟩ := hkeys.exists_left hl
  have hagree : ∀ r ∈ rows, ∀ val, project r (indices.map Prod.snd) = .ok val →
      (key = val ↔ Agree keys left names l r) := fun r hr val hval =>
    hkeys.eq_iff_agree hl (hwidth r hr) hkey (project_eq_ok.mp hval)
  refine ⟨decide (key ∈ vals), by rw [hkey]; rfl, ?_⟩
  rw [decide_eq_true_iff]
  constructor
  · intro hmem
    obtain ⟨r, hr, hval⟩ := hfrom key hmem
    exact ⟨r, hr, (hagree r hr key hval).mp rfl⟩
  · rintro ⟨r, hr, hag⟩
    obtain ⟨val, hmem, hval⟩ := hin r hr
    rwa [(hagree r hr val hval).mpr hag]

/-- The test against the right rows under a prefix. -/
lemma under_spec (hfront : joinIsPrefix indices = true)
    (hwidth : ∀ r ∈ rows, r.length = names.length) {l : Tuple} (hl : l.length = left.length)
    (n : ℕ) :
    ∃ p, project l ((prefixColumns indices).take n) = .ok p ∧
      ∃ b, (rows.filter (p <+: ·)).anyM (agrees l · indices) = .ok b ∧
        (b = true ↔ ∃ r ∈ rows, Agree keys left names l r) := by
  obtain ⟨p, hp, hplen, htake⟩ := hkeys.exists_prefix hl
  have hrow : ∀ r ∈ rows.filter (fun r => decide (p.take n <+: r)), agrees l r indices =
      .ok (decide (∀ x ∈ indices, l[x.1]? = r[x.2]?)) := by
    intro r hr
    refine agrees_eq_ok ?_
    rw [hl, hwidth r (mem_filter.mp hr).1]
    exact hkeys.lt
  refine ⟨p.take n, htake n, _, anyM_eq_ok hrow, ?_⟩
  rw [any_eq_true]
  constructor
  · rintro ⟨r, hr, hag⟩
    have hmem := (mem_filter.mp hr).1
    exact ⟨r, hmem, (hkeys.agree_iff hl (hwidth r hmem)).mpr (decide_eq_true_iff.mp hag)⟩
  · rintro ⟨r, hr, hag⟩
    have hpre := (hkeys.prefix_iff_agree hl hfront hp hplen (hwidth r hr)).mpr hag
    refine ⟨r, mem_filter.mpr ⟨hr, ?_⟩, ?_⟩
    · have hcut := take_prefix n p
      exact decide_eq_true (hcut.trans hpre)
    · exact decide_eq_true ((hkeys.agree_iff hl (hwidth r hr)).mp hag)

end

/-- **The test of an anti-join** answers whether some right row agrees on the keys. -/
theorem hasMatch_spec (hkeys : KeyIndices left right.bindings keys indices)
    (hwidth : ∀ r, rd.Totals right r → r.length = right.bindings.length)
    (hread : rd.Readable right) :
    ∃ test, right.hasMatch rd indices = .ok test ∧ ∀ l : Tuple, l.length = left.length →
      ∃ b, test l = .ok b ∧
        (b = true ↔ ∃ r, rd.Totals right r ∧ Agree keys left right.bindings l r) := by
  cases right with
  | derived source names =>
    obtain ⟨vals, hvals, hspec⟩ := among_spec hkeys hwidth
    exact ⟨_, by simp only [hasMatch, hvals]; rfl, hspec⟩
  | scan source names filters =>
    obtain ⟨rows, hrows⟩ := hread
    have htotals : ∀ r, rd.Totals (.scan source names filters) r ↔ r ∈ rows := by
      intro r
      constructor
      · rintro ⟨rows', hrows', hr⟩
        rwa [ok.inj (hrows.symm.trans hrows')]
      · exact fun hr => ⟨rows, hrows, hr⟩
    have hlens : ∀ r ∈ rows, r.length = names.length := fun r hr => hwidth r ((htotals r).mpr hr)
    simp only [htotals]
    by_cases hfront : joinIsPrefix indices = true
    · cases source with
      | stored h | storedWithValidity h _ =>
        refine ⟨_, by simp only [hasMatch, hrows, hfront]; rfl, fun l hl => ?_⟩
        obtain ⟨p, hp, hspec⟩ := under_spec hkeys hfront hlens hl h.keyLen
        rwa [hp]
      | tempStore key occurrence =>
        refine ⟨_, by simp only [hasMatch, hrows, hfront]; rfl, fun l hl => ?_⟩
        obtain ⟨p, hp, hspec⟩ := under_spec hkeys hfront hlens hl (prefixColumns indices).length
        rw [take_length] at hp
        rwa [hp]
    · obtain ⟨vals, hvals, hspec⟩ := among_spec hkeys hlens
      exact ⟨_, by simp only [hasMatch, hrows, hfront, bind, Except.bind, hvals]; rfl, hspec⟩

/-- An anti-join whose right side cannot be read fails. -/
lemma hasMatch_unreadable (indices : List (ℕ × ℕ)) (h : ¬ rd.Readable right) :
    ∃ e, right.hasMatch rd indices = .error e := by
  cases right with
  | derived source names => exact absurd trivial h
  | scan source names filters =>
    cases hrows : rd.totalRows source with
    | ok rows => exact absurd ⟨rows, hrows⟩ h
    | error e => exact ⟨e, by simp only [hasMatch, hrows]; rfl⟩

end

end Kyzo

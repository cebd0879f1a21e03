import Kyzo.Exec.DeltaStore

/-!
# Normal levels as lists of rows

A normal level stands for the list of its rows.  Against that reading an arena append is an append,
a search is a lookup, a bound search is a filter and a compaction is a newest-wins merge; nothing
later mentions arenas or offsets.
-/

namespace Kyzo

open List Nat

namespace NormalLevel

/-- The rows of a level, with their flags. -/
def rows (l : NormalLevel) : List (Bytes × RowFlags) :=
  (range l.len).map fun i => (l.rowAt i, l.rowFlagsAt i)

@[simp] lemma length_rows (l : NormalLevel) : l.rows.length = l.len := by
  simp [rows]

@[simp] lemma rows_empty : rows empty = [] := rfl

variable {i : ℕ}

lemma getElem_rows (l : NormalLevel) (hi : i < l.rows.length) :
    l.rows[i] = (l.rowAt i, l.rowFlagsAt i) := by
  simp [rows]

lemma isEmpty_iff (l : NormalLevel) : l.isEmpty = true ↔ l.rows = [] := by
  rw [isEmpty, List.isEmpty_iff, ← List.length_eq_zero_iff, ← List.length_eq_zero_iff, length_rows,
    len]

/-! ## Appending -/

variable {flags : RowFlags} {l l' : NormalLevel} {row : Bytes}

lemma rowAt_push_of_lt (hvalues : l'.values = l.values ++ row)
    (hoffsets : l'.offsets = l.offsets ++ [(l.values ++ row).length])
    (hflags : l'.flags = l.flags ++ [flags]) (hi : i < l.len) :
    (l'.rowAt i, l'.rowFlagsAt i) = (l.rowAt i, l.rowFlagsAt i) := by
  have hget : ∀ j, j < l.len → l'.offsets.getD j 0 = l.offsets.getD j 0 := by
    intro j hj
    rw [hoffsets, getD_append _ _ _ _ hj]
  have hstop : l.offsets.getD i 0 ≤ l.values.length := by
    rw [getD_eq_getElem _ _ hi]
    exact l.offsets_le _ (getElem_mem _)
  have hrow : l'.rowAt i = l.rowAt i := by
    simp only [rowAt]
    rw [hget i hi, hvalues, take_append_of_le_length hstop]
    rcases i with _ | i
    · rfl
    · rw [hget (i + 1 - 1) (by omega)]
  have hflag : l'.rowFlagsAt i = l.rowFlagsAt i := by
    have hlt : i < l.flags.length := l.flags_length ▸ hi
    rw [rowFlagsAt, rowFlagsAt, hflags, getD_append _ _ _ _ hlt]
  rw [hrow, hflag]

lemma rowAt_push_last (hvalues : l'.values = l.values ++ row)
    (hoffsets : l'.offsets = l.offsets ++ [(l.values ++ row).length])
    (hflags : l'.flags = l.flags ++ [flags]) :
    (l'.rowAt l.len, l'.rowFlagsAt l.len) = (row, flags) := by
  have hstop : l'.offsets.getD l.len 0 = (l.values ++ row).length := by
    rw [hoffsets, len]
    simp
  have hstart : (if l.len = 0 then 0 else l'.offsets.getD (l.len - 1) 0) = l.values.length := by
    have hlast := l.offsets_last
    by_cases hzero : l.len = 0
    · rw [if_pos hzero, ← hlast, eq_nil_of_length_eq_zero hzero]
      rfl
    · have hlt : l.len - 1 < l.offsets.length := sub_lt (pos_of_ne_zero hzero) one_pos
      rw [if_neg hzero, ← hlast, hoffsets, getD_eq_getElem?_getD,
        getElem?_append_left hlt, getLastD_eq_getLast?, getLast?_eq_getElem?]
      rfl
  have hrow : l'.rowAt l.len = row := by
    simp only [rowAt]
    rw [hstart, hstop, hvalues, take_length, drop_left]
  have hflag : l'.rowFlagsAt l.len = flags := by
    rw [rowFlagsAt, hflags, len, ← l.flags_length]
    simp
  rw [hrow, hflag]

/-- **An arena append is an append**, refused only past the `u32` range. -/
theorem push_spec (l : NormalLevel) (row : Bytes) (flags : RowFlags) :
    (∃ l', l.push row flags = .ok l' ∧ l'.rows = l.rows ++ [(row, flags)] ∧
      l'.values = l.values ++ row) ∨
    (∃ e, l.push row flags = .error e ∧ arenaMax < (l.values ++ row).length) := by
  by_cases hfit : (l.values ++ row).length ≤ arenaMax
  · left
    refine ⟨_, by rw [push, if_pos hfit], ?_, rfl⟩
    have hlen : (l.offsets ++ [(l.values ++ row).length]).length = l.len + 1 := by simp [len]
    rw [rows, len, hlen, range_succ, map_append]
    congr 1
    · refine map_congr_left ?_
      intro i hi
      exact rowAt_push_of_lt rfl rfl rfl (mem_range.mp hi)
    · rw [map_singleton, rowAt_push_last rfl rfl rfl]
  · right
    exact ⟨_, by rw [push, if_neg hfit], Nat.lt_of_not_le hfit⟩

/-! ## Searching -/

variable (h : KeysAscend l.rows)
include h

lemma rowAt_lt_rowAt {j : ℕ} (hij : i < j) (hj : j < l.len) :
    compare (l.rowAt i) (l.rowAt j) = .lt := by
  have hj' : j < l.rows.length := by rwa [length_rows]
  have hpair := pairwise_iff_getElem.mp h i j (hij.trans hj') hj' hij
  rwa [getElem_rows, getElem_rows] at hpair

/-- **A search is a lookup.** -/
theorem find_spec (key : Bytes) : (l.find key).map l.rowFlagsAt = lookupKey l.rows key := by
  by_cases hex : ∃ i < l.len, l.rowAt i = key
  · obtain ⟨i, hi, rfl⟩ := hex
    have hbisect : bisect (fun j => compare (l.rowAt j) (l.rowAt i)) l.len = .ok i := by
      refine bisect_ok Std.ReflCmp.compare_self hi ?_ ?_
      · exact fun j hj => rowAt_lt_rowAt h hj hi
      · exact fun j hij hj => Std.OrientedCmp.gt_of_lt (rowAt_lt_rowAt h hij hj)
    have hmem : (l.rowAt i, l.rowFlagsAt i) ∈ l.rows := by
      rw [← getElem_rows l (by rwa [length_rows])]
      exact getElem_mem _
    rw [(lookupKey_eq_some h).mpr hmem, find, hbisect]
    rfl
  · have hnone : lookupKey l.rows key = none := by
      refine lookupKey_eq_none.mpr ?_
      intro e he heq
      obtain ⟨i, hi, rfl⟩ := getElem_of_mem he
      rw [getElem_rows] at heq
      exact hex ⟨i, by rwa [length_rows] at hi, heq⟩
    rw [hnone, find]
    rcases hb : bisect (fun i => compare (l.rowAt i) key) l.len with r | i
    · rfl
    · obtain ⟨hi, heq⟩ := bisect_sound hb
      exact absurd ⟨i, hi, Std.LawfulEqOrd.eq_of_compare heq⟩ hex

lemma isSome_find (key : Bytes) : (l.find key).isSome = (lookupKey l.rows key).isSome := by
  rw [← find_spec h, Option.isSome_map]

omit h

/-- **A bound search is a filter**, for bounds that only switch off along the rows. -/
theorem slice_window {before upTo : Bytes → Bool}
    (hbefore : l.rows.Pairwise fun x y => before y.1 = true → before x.1 = true)
    (hupTo : l.rows.Pairwise fun x y => upTo y.1 = true → upTo x.1 = true) :
    l.slice (l.window before upTo) = l.rows.filter fun e => !before e.1 && upTo e.1 := by
  have hrow : ∀ (p : Bytes → Bool) i, (hi : i < l.rows.length) → p (l.rowAt i) = p l.rows[i].1 := by
    intro p i hi
    rw [getElem_rows]
  have hstart : lowerBoundFrom (fun i => before (l.rowAt i)) 0 l.len =
      l.rows.countP fun e => before e.1 := by
    rw [← length_rows, lowerBoundFrom_eq hbefore (hrow before) (zero_le _), zero_max]
  have hcount : l.rows.countP (fun e => before e.1) ≤ l.rows.length := countP_le_length
  have hstop : lowerBoundFrom (fun i => upTo (l.rowAt i)) (l.rows.countP fun e => before e.1)
      l.len = max (l.rows.countP fun e => before e.1) (l.rows.countP fun e => upTo e.1) := by
    rw [← length_rows, lowerBoundFrom_eq hupTo (hrow upTo) hcount]
  have hslice : ∀ lo n, lo + n ≤ l.len →
      l.slice (lo, lo + n) = (l.rows.drop lo).take n := by
    intro lo n hle
    refine ext_getElem ?_ ?_
    · simp [slice]
      omega
    · simp [slice, getElem_map, getElem_range', getElem_take,
        getElem_drop, getElem_rows, one_mul]
  have hle : l.rows.countP (fun e => upTo e.1) ≤ l.rows.length := countP_le_length
  rw [length_rows] at hcount hle
  rw [window, hstart, ← take_drop_countP hbefore hupTo, ← hslice _ _ (by omega)]
  congr 2
  omega

/-! ## Appending many rows -/

/-- The bytes of a list of rows. -/
def bytesOf (rows : List (Bytes × RowFlags)) : ℕ := (rows.map fun e => e.1.length).sum

/-- The arena holds the bytes of the rows and no others. -/
def Tight (l : NormalLevel) : Prop := l.values.length = bytesOf l.rows

lemma tight_empty : Tight empty := rfl

/-- A loop that appends `rest` to a level: it does, unless the rows outgrow the arena. -/
def Appends (result : Except LevelArenaOverflow NormalLevel) (l : NormalLevel)
    (rest : List (Bytes × RowFlags)) : Prop :=
  (∃ out, result = .ok out ∧ out.rows = l.rows ++ rest ∧ out.Tight) ∨
    ∃ e, result = .error e ∧ arenaMax < bytesOf (l.rows ++ rest)

lemma Appends.nil (h : l.Tight) : Appends (.ok l) l [] :=
  .inl ⟨l, rfl, by simp, h⟩

lemma Appends.cons (h : l.Tight) {rest : List (Bytes × RowFlags)}
    {next : NormalLevel → Except LevelArenaOverflow NormalLevel}
    (hnext : ∀ l' : NormalLevel, l'.rows = l.rows ++ [(row, flags)] → l'.Tight →
      Appends (next l') l' rest) :
    Appends (l.push row flags >>= next) l ((row, flags) :: rest) := by
  rcases l.push_spec row flags with ⟨l', hok, hrows, hvalues⟩ | ⟨e, herr, hover⟩
  · have htight : l'.Tight := by
      have hsum : l.values.length = bytesOf l.rows := h
      simp [Tight, hvalues, hrows, bytesOf, length_append, map_append, hsum]
    have happ := hnext l' hrows htight
    change Appends (Except.bind (l.push row flags) next) l _
    rw [hok, Except.bind]
    simpa only [Appends, hrows, append_assoc, singleton_append] using happ
  · right
    refine ⟨e, by rw [herr]; rfl, ?_⟩
    have hsum : l.values.length = bytesOf l.rows := h
    rw [length_append, hsum] at hover
    simp only [bytesOf, map_append, map_cons, sum_append_nat, sum_cons] at hover ⊢
    omega

/-! ## Compacting -/

/-- What a surviving row keeps: its skip flag, and no refresh mark. -/
def settle (flags : RowFlags) : RowFlags := { skip := flags.skip, refresh := .admitted }

lemma drop_rows (hi : i < l.len) :
    l.rows.drop i = (l.rowAt i, l.rowFlagsAt i) :: l.rows.drop (i + 1) := by
  have hi' : i < l.rows.length := by rwa [length_rows]
  rw [drop_eq_getElem_cons hi', getElem_rows]

lemma drop_rows_of_le (hi : l.len ≤ i) : l.rows.drop i = [] :=
  drop_eq_nil_of_le (by rwa [length_rows])

/-- **A compaction is a newest-wins merge** of what both levels still hold. -/
theorem compactRows_spec (older newer : NormalLevel) (bound a b : ℕ) {merged : NormalLevel}
    (hbound : (older.len - a) + (newer.len - b) ≤ bound) (htight : merged.Tight) :
    Appends (compactRows older newer bound a b merged) merged
      (mergeNewest settle (older.rows.drop a) (newer.rows.drop b)) := by
  induction bound generalizing a b merged with
  | zero =>
    rw [drop_rows_of_le (by omega), drop_rows_of_le (by omega), mergeNewest]
    exact .nil htight
  | succ bound ih =>
    rw [compactRows]
    by_cases hmore : a < older.len ∨ b < newer.len
    · rw [if_pos hmore]
      by_cases ha : older.len ≤ a
      · -- Only the newer level has rows left.
        have hb : b < newer.len := by omega
        rw [if_pos ha, drop_rows_of_le ha, drop_rows hb, mergeNewest]
        refine .cons htight fun l' _ hl' => ?_
        have happ := ih a (b + 1) (by omega) hl'
        rwa [drop_rows_of_le ha, mergeNewest] at happ
      · rw [if_neg ha]
        by_cases hb : newer.len ≤ b
        · -- Only the older level has rows left.
          rw [if_pos hb, drop_rows (Nat.lt_of_not_le ha), drop_rows_of_le hb, mergeNewest_nil_right]
          refine .cons htight fun l' _ hl' => ?_
          have happ := ih (a + 1) b (by omega) hl'
          rwa [drop_rows_of_le hb, mergeNewest_nil_right] at happ
        · have hrowa := drop_rows (Nat.lt_of_not_le ha)
          have hrowb := drop_rows (Nat.lt_of_not_le hb)
          rw [if_neg hb, hrowa, hrowb, mergeNewest]
          rcases compare (older.rowAt a) (newer.rowAt b)
          · refine .cons htight fun l' _ hl' => ?_
            have happ := ih (a + 1) b (by omega) hl'
            rwa [hrowb] at happ
          · exact .cons htight fun l' _ hl' => ih (a + 1) (b + 1) (by omega) hl'
          · refine .cons htight fun l' _ hl' => ?_
            have happ := ih a (b + 1) (by omega) hl'
            rwa [hrowa] at happ
    · rw [if_neg hmore, drop_rows_of_le (by omega), drop_rows_of_le (by omega), mergeNewest]
      exact .nil htight

end NormalLevel

end Kyzo

import Kyzo.Value.Access
import Kyzo.Value.Tuple

/-!
# Segments of current rows

`project/current.rs`: one relation's current rows, flattened into one dense buffer with the end of
each row.  A segment is only built while the ends fit a `u32`.
-/

namespace Kyzo

open List

/-- `Segment`: the values of the rows and, for each row, where it ends. -/
structure Segment where
  values : List DataValue
  offsets : List ℕ

namespace Segment

def checkedRowEnd (valuesLen : ℕ) : Option ℕ := if valuesLen < 2 ^ 32 then some valuesLen else none

variable (seg : Segment)

/-- One row of `Segment::build`. -/
def pushRow (row : Tuple) : Option Segment :=
  let values := seg.values ++ row
  (checkedRowEnd values.length).map fun rowEnd => ⟨values, seg.offsets ++ [rowEnd]⟩

def build (rows : List Tuple) : Option Segment := rows.foldlM pushRow ⟨[], []⟩

def len : ℕ := seg.offsets.length

def rowAt (i : ℕ) : Tuple :=
  let start := if i = 0 then 0 else seg.offsets.getD (i - 1) 0
  (seg.values.take (seg.offsets.getD i 0)).drop start

/-- The rows of a segment. -/
def rows : List Tuple := (range seg.len).map seg.rowAt

/-- What a segment holds of the rows pushed into it. -/
structure Holds (seg : Segment) (rows : List Tuple) : Prop where
  values : seg.values = rows.flatten
  offsets : seg.offsets = (range rows.length).map fun i => (rows.take (i + 1)).flatten.length

variable {rows : List Tuple} {seg seg' : Segment}

lemma Holds.pushRow {row : Tuple} (h : seg.Holds rows) (hpush : seg.pushRow row = some seg') :
    seg'.Holds (rows ++ [row]) := by
  obtain ⟨rowEnd, hend, rfl⟩ := Option.map_eq_some_iff.mp hpush
  rw [checkedRowEnd] at hend
  split_ifs at hend
  cases hend
  have hvalues : seg.values ++ row = (rows ++ [row]).flatten := by
    rw [h.values, flatten_concat]
  have hlen : (rows ++ [row]).length = rows.length + 1 := length_append
  refine ⟨hvalues, ?_⟩
  rw [hlen, range_succ, map_append, map_singleton]
  change seg.offsets ++ _ = _
  rw [h.offsets]
  congr 1
  · refine map_congr_left fun i hi => ?_
    rw [take_append_of_le_length (mem_range.mp hi)]
  · rw [hvalues, take_of_length_le (by simp)]

lemma holds_of_foldlM {before rows : List Tuple} (h : seg.Holds before)
    (hfold : rows.foldlM Segment.pushRow seg = some seg') : seg'.Holds (before ++ rows) := by
  induction rows generalizing seg before with
  | nil =>
    cases hfold
    rwa [append_nil]
  | cons row rows ih =>
    obtain ⟨next, hnext, hfold⟩ := Option.bind_eq_some_iff.mp hfold
    have := ih (h.pushRow hnext) hfold
    rwa [append_assoc] at this

lemma Holds.rows_eq (h : seg.Holds rows) : seg.rows = rows := by
  have hlen : seg.len = rows.length := by rw [len, h.offsets, length_map, length_range]
  refine ext_getElem (by rw [Segment.rows, length_map, length_range, hlen]) ?_
  intro i hi hi'
  have hoffset : ∀ j < rows.length, seg.offsets.getD j 0 = (rows.take (j + 1)).flatten.length := by
    intro j hj
    rw [h.offsets, getD_eq_getElem?_getD, getElem?_map, getElem?_range hj]
    rfl
  have hstart : (if i = 0 then 0 else seg.offsets.getD (i - 1) 0) =
      (rows.take i).flatten.length := by
    split_ifs with hzero
    · rw [hzero]
      rfl
    · rw [hoffset (i - 1) (by omega), Nat.sub_add_cancel (by omega)]
  have hrow : seg.rows[i] = seg.rowAt i := by simp [Segment.rows]
  rw [hrow, rowAt, hstart, hoffset i hi', h.values]
  -- The rows up to `i` end where the flattened rows up to it end.
  have htake : rows.flatten.take (rows.take (i + 1)).flatten.length =
      (rows.take (i + 1)).flatten := by
    conv_lhs => rw [← take_append_drop (i + 1) rows, flatten_append]
    rw [take_append_drop, take_left]
  rw [htake, take_succ_eq_append_getElem hi', flatten_concat, drop_left]

/-- **A segment is built of the rows it holds.** -/
theorem rows_build (h : build rows = some seg) : seg.rows = rows :=
  (holds_of_foldlM (⟨rfl, rfl⟩ : Holds ⟨[], []⟩ []) h).rows_eq

end Segment

end Kyzo

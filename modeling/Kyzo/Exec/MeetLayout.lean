import Kyzo.Exec.AggrLaws

/-!
# Head rows of a meet layout

A layout splits the positions of a head into keys and values.  Rebuilding a head row from a group
key and its folded values is inverted by projecting the key back, wherever the positions sit; on a
suffix layout the row is the key followed by the values.
-/

namespace Kyzo

open List OwnBareKey MeetAccum

variable {key : Tuple}

namespace MeetLayout

/-! ## Writing at positions -/

@[simp] lemma length_fill (row : Tuple) (positions : List ℕ) (values : List DataValue) :
    (fill row positions values).length = row.length := by
  induction positions generalizing row values with
  | nil => rw [fill]; simp
  | cons p positions ih =>
    rcases values with _ | ⟨v, values⟩
    · rw [fill]; simp
    · rw [fill, ih, length_set]

variable {row : Tuple}

section

variable {positions : List ℕ} {values : List DataValue}

/-- Other positions stay as they were. -/
lemma getElem?_fill_of_notMem {p : ℕ}
    (hp : p ∉ positions) : (fill row positions values)[p]? = row[p]? := by
  induction positions generalizing row values with
  | nil => rw [fill]; simp
  | cons q positions ih =>
    have hne : q ≠ p := fun heq => hp (heq ▸ .head _)
    have htail : p ∉ positions := fun hmem => hp (.tail _ hmem)
    rcases values with _ | ⟨v, values⟩
    · rw [fill]; simp
    · rw [fill, ih htail, getElem?_set_ne hne]

/-- What is written at positions is read back there. -/
lemma map_getD_fill (hlen : positions.length = values.length) (hnodup : positions.Nodup)
    (hlt : ∀ p ∈ positions, p < row.length) :
    (positions.map fun p => (fill row positions values).getD p .null) = values := by
  induction positions generalizing row values with
  | nil =>
    rw [map_nil, eq_nil_of_length_eq_zero hlen.symm]
  | cons p positions ih =>
    rcases values with _ | ⟨v, values⟩
    · simp at hlen
    obtain ⟨hp, hnodup'⟩ := nodup_cons.mp hnodup
    obtain ⟨hplt, hlt'⟩ := forall_mem_cons.mp hlt
    have hhead : (fill (row.set p v) positions values).getD p .null = v := by
      rw [getD_eq_getElem?_getD, getElem?_fill_of_notMem hp, getElem?_set_self hplt]
      rfl
    rw [map_cons, fill, hhead, ih (by simpa using hlen) hnodup' (by simpa using hlt')]

end

/-! ## Head rows -/

section

variable (l : MeetLayout)

/-- The head row of a group key and its folded values. -/
def headRow (key : Tuple) (vals : List MeetAccum) : Tuple :=
  fill (fill (replicate l.arity .null) l.keyPositions key) l.valPositions
    (vals.map toValue)

@[simp] lemma length_headRow (key : Tuple) (vals : List MeetAccum) :
    (l.headRow key vals).length = l.arity := by
  simp [headRow]

lemma lt_of_mem_keyPositions {p : ℕ} (hp : p ∈ l.keyPositions) : p < l.arity :=
  (l.mem_iff p).mpr (.inl hp)

lemma lt_of_mem_valPositions {p : ℕ} (hp : p ∈ l.valPositions) : p < l.arity :=
  (l.mem_iff p).mpr (.inr hp)

/-- **Projecting a head row gives its key back.** -/
theorem projectKey_headRow (hkey : key.length = l.keyPositions.length)
    (vals : List MeetAccum) : l.projectKey (l.headRow key vals) = key := by
  have hfill : (l.keyPositions.map fun p =>
      (fill (replicate l.arity .null) l.keyPositions key).getD p .null) = key := by
    refine map_getD_fill hkey.symm (l.keys_ascend.imp Nat.ne_of_lt) ?_
    intro p hp
    simpa using l.lt_of_mem_keyPositions hp
  rw [← hfill]
  refine map_congr_left ?_
  intro p hp
  rw [getD_eq_getElem?_getD, headRow, getElem?_fill_of_notMem (l.disjoint p hp),
    getD_eq_getElem?_getD, hfill]

/-- A head row has its values at the value positions. -/
lemma map_getD_headRow (key : Tuple) {vals : List MeetAccum}
    (hvals : vals.length = l.valPositions.length) :
    (l.valPositions.map fun p => (l.headRow key vals).getD p .null) =
      vals.map toValue := by
  refine map_getD_fill (by rw [length_map, hvals]) (l.vals_ascend.imp Nat.ne_of_lt) ?_
  intro p hp
  simpa using l.lt_of_mem_valPositions hp

lemma length_projectKey (row : Tuple) : (l.projectKey row).length = l.keyPositions.length := by
  rw [projectKey, length_map]

end

lemma map_getD_range {n : ℕ} (hn : n ≤ row.length) :
    (range n).map (fun p => row.getD p .null) = row.take n := by
  refine ext_getElem (by simp [hn]) ?_
  intro i hi hi'
  have hlt : i < row.length := by
    rw [length_take] at hi'
    omega
  rw [getElem_map, getElem_range, getD_eq_getElem _ _ hlt, getElem_take]

/-- Keys that lead the head fit in it. -/
lemma keyPositions_length_le (l : MeetLayout) (h : l.isSuffix = true) :
    l.keyPositions.length ≤ l.arity := by
  rw [isSuffix, beq_iff_eq] at h
  rcases hn : l.keyPositions.length with _ | n
  · exact Nat.zero_le _
  · have hmem : n ∈ l.keyPositions := by
      rw [h, hn]
      exact mem_range.mpr (Nat.lt_succ_self n)
    exact l.lt_of_mem_keyPositions hmem

/-- A borrowed key is the projected one, leading or not. -/
lemma borrowKey_eq (l : MeetLayout) (hrow : l.arity ≤ row.length) :
    l.borrowKey row = .encode (l.projectKey row) := by
  rw [borrowKey]
  split_ifs with hsuffix
  · have hle : l.keyPositions.length ≤ row.length := (l.keyPositions_length_le hsuffix).trans hrow
    rw [isSuffix, beq_iff_eq] at hsuffix
    rw [projectKey, ← map_getD_range hle, ← hsuffix]
  · rfl

lemma borrowKey_headRow (l : MeetLayout) (hkey : key.length = l.keyPositions.length)
    (vals : List MeetAccum) : l.borrowKey (l.headRow key vals) = .encode key := by
  rw [l.borrowKey_eq (l.length_headRow key vals).ge, l.projectKey_headRow hkey]

/-- Behind leading keys come the values. -/
lemma valPositions_of_suffix {l : MeetLayout} (h : l.isSuffix = true) :
    l.valPositions = range' l.keyPositions.length (l.arity - l.keyPositions.length) := by
  rw [isSuffix, beq_iff_eq] at h
  have hmem : ∀ p, p ∈ l.valPositions ↔
      p ∈ range' l.keyPositions.length (l.arity - l.keyPositions.length) := by
    intro p
    have hkey : p ∈ l.keyPositions ↔ p < l.keyPositions.length := by
      rw [h, mem_range, length_range]
    have hdisj := l.disjoint p
    have hiff := l.mem_iff p
    rw [mem_range'_1, ← hkey.not.trans Nat.not_lt]
    constructor
    · intro hp
      have hlt := hiff.mpr (.inr hp)
      exact ⟨fun hk => hdisj hk hp, by omega⟩
    · rintro ⟨hk, hlt⟩
      refine (hiff.mp ?_).resolve_left hk
      rw [hkey] at hk
      omega
  have hperm : l.valPositions.Perm
      (range' l.keyPositions.length (l.arity - l.keyPositions.length)) :=
    (perm_ext_iff_of_nodup (l.vals_ascend.imp Nat.ne_of_lt) nodup_range').mpr hmem
  refine hperm.eq_of_pairwise ?_ l.vals_ascend pairwise_lt_range'
  omega

/-- **On a suffix layout a head row is its key followed by its values.** -/
theorem headRow_of_suffix {l : MeetLayout} (h : l.isSuffix = true)
    (hkey : key.length = l.keyPositions.length) {vals : List MeetAccum}
    (hvals : vals.length = l.valPositions.length) :
    l.headRow key vals = key ++ vals.map toValue := by
  have hlen := l.length_headRow key vals
  have hval := valPositions_of_suffix h
  have hle : l.keyPositions.length ≤ (l.headRow key vals).length := by
    rw [hlen]
    exact l.keyPositions_length_le h
  have htake : (l.headRow key vals).take l.keyPositions.length = key := by
    rw [← map_getD_range hle]
    conv_rhs => rw [← l.projectKey_headRow hkey vals, projectKey]
    rw [isSuffix, beq_iff_eq] at h
    rw [← h]
  have hdrop : (l.headRow key vals).drop l.keyPositions.length = vals.map toValue := by
    rw [← l.map_getD_headRow key hvals, hval]
    refine ext_getElem (by simp [hlen]) ?_
    intro i hi hi'
    have hlt : l.keyPositions.length + i < (l.headRow key vals).length := by
      rw [length_drop] at hi
      omega
    rw [getElem_drop, getElem_map, getElem_range', one_mul, getD_eq_getElem _ _ hlt]
  rw [← take_append_drop l.keyPositions.length (l.headRow key vals), htake, hdrop]

end MeetLayout

/-! ## Reading a key back -/

/-- A key within the nesting bound is read back. -/
lemma OwnBareKey.decodeTuple_encode {t : Tuple} (ht : t.Shallow) :
    (encode t).decodeTuple = .ok t := by
  have hdecode : decodeTupleBare (encode t).bytes = .ok (t.map Subtype.val) := by
    rw [encode, Tuple.decodeTupleBare_bare]
    exact if_pos ht
  rw [decodeTuple]
  split
  · next vs hvs =>
    cases hvs.symm.trans hdecode
    exact congrArg Except.ok (DataValue.pmap_map_val t _)
  · next e he => cases he.symm.trans hdecode

lemma MeetLayout.interleave_encode (l : MeetLayout) (hkey : key.Shallow)
    (vals : List MeetAccum) : l.interleave (.encode key) vals = .ok (l.headRow key vals) := by
  rw [interleave, decodeTuple_encode hkey]
  rfl

end Kyzo

import Kyzo.Value.CanonicalSkip

/-!
# Bare tuples and scan bounds

The in-memory stores key their rows by bare tuple encodings.  Bytes compare as tuples, an encoding
determines its tuple, and a bare scan bound compares with a row as the bound's columns compare with
the row's.
-/

namespace Kyzo

open List RawValue DataValue

/-- A row of values (`Tuple`). -/
abbrev Tuple := List DataValue

/-- `encode_tuple_bare` of a row. -/
def Tuple.bare (t : Tuple) : Bytes := encodeTupleBare (t.map Subtype.val)

namespace Tuple

@[simp] lemma bare_nil : bare [] = [] := rfl

@[simp] lemma bare_cons (v : DataValue) (t : Tuple) :
    bare (v :: t) = encodeOwned v.val ++ bare t := rfl

@[simp] lemma bare_append (t u : Tuple) : bare (t ++ u) = bare t ++ bare u := by
  rw [bare, bare, bare, encodeTupleBare, encodeTupleBare, encodeTupleBare, map_append,
    flatMap_append]

lemma encodeOwned_ne_nil (v : RawValue) : encodeOwned v ≠ [] := by
  obtain ⟨rest, hrest⟩ := encodeOwned_eq_cons v
  simp [hrest]

/-- **Bytes compare as rows.** -/
theorem compare_bare (t u : Tuple) : compare t.bare u.bare = compare t u := by
  rw [bare, bare, encodeTupleBare, encodeTupleBare, flatMap_map, flatMap_map]
  exact compare_flatMap t u (fun v _ w _ => settles v.property w.property)
    (fun v _ => encodeOwned_ne_nil v.val) (fun w _ => encodeOwned_ne_nil w.val)

lemma compare_cons (v w : DataValue) (t u : Tuple) :
    compare (v :: t) (w :: u) = (compare v w).then (compare t u) :=
  List.compareLex_cons_cons

lemma compare_eq_iff (t u : Tuple) : compare t u = .eq ↔ t = u := by
  induction t generalizing u with
  | nil =>
    rcases u with _ | ⟨w, u⟩
    · simp
    · simp
  | cons v t ih =>
    rcases u with _ | ⟨w, u⟩
    · simp
    · rw [compare_cons, Ordering.then_eq_eq, DataValue.compare_eq_iff, ih u, List.cons.injEq]

lemma bare_injective {t u : Tuple} (h : t.bare = u.bare) : t = u := by
  rw [← compare_eq_iff, ← compare_bare, h]
  exact Std.ReflCmp.compare_self

/-- The nesting of a row's values stays within what the decoder and the walk accept. -/
def Shallow (t : Tuple) : Prop := ∀ v ∈ t, v.val.depth ≤ maxDepth

lemma Shallow.walkable {t : Tuple} (ht : t.Shallow) (n : ℕ) :
    ∀ v ∈ t.take n, Walkable (maxDepth + 1) v.val :=
  fun v hv => walkable_of_depth le_rfl (Nat.lt_succ_of_le (ht v (mem_of_mem_take hv)))

lemma barePrefixLen_bare {t : Tuple} {cols : ℕ}
    (ht : ∀ v ∈ t.take cols, Walkable (maxDepth + 1) v.val) :
    barePrefixLen t.bare cols =
      if cols ≤ t.length then some (bare (t.take cols)).length else none := by
  induction cols generalizing t with
  | zero => simp [barePrefixLen]
  | succ cols ih =>
    rcases t with _ | ⟨v, t⟩
    · simp [barePrefixLen]
    have hskip : skipOne (bare (v :: t)) = .ok (encodeOwned v.val).length :=
      skipAt_spans v.property (ht v (.head _)) (bare t)
    have hne : bare (v :: t) ≠ [] := by
      exact append_ne_nil_of_left_ne_nil (encodeOwned_ne_nil v.val) _
    have hdrop : (bare (v :: t)).drop (encodeOwned v.val).length = bare t := by
      rw [bare_cons, drop_left]
    rw [barePrefixLen, if_neg hne, hskip]
    simp only [Except.toOption, Option.bind_eq_bind, Option.bind_some]
    rw [hdrop, ih fun w hw => ht w (.tail _ hw)]
    by_cases hle : cols ≤ t.length
    · simp [hle]
    · simp [hle]

/-- **The walk agrees with the decoder**: where the decoder accepts a value, the walk skips exactly
its bytes, and over an encoded row it ends where the encoding of the first columns ends, if these
nest within its bounds. -/
theorem skip_matches_decode :
    (∀ (b : Bytes) (v : RawValue) (n : ℕ), decodeOne b = .ok (v, n) → skipOne b = .ok n) ∧
    (∀ (t : Tuple) (k : ℕ), k ≤ t.length → (∀ v ∈ t.take k, Walkable (maxDepth + 1) v.val) →
      barePrefixLen t.bare k = some (bare (t.take k)).length) := by
  refine ⟨fun b v n => skipOne_of_decodeOne, fun t k hk ht => ?_⟩
  rw [barePrefixLen_bare ht, if_pos hk]

/-- A row of one list nested one level too deep has a first column the walk does not cross. -/
theorem barePrefixLen_nestedList :
    barePrefixLen (bare [⟨nestedList (maxDepth + 1), nestedList_lawful _⟩]) 1 = none := by
  decide +kernel

lemma decodeTupleBare_bare (t : Tuple) : decodeTupleBare t.bare =
      if ∀ v ∈ t, v.val.depth ≤ maxDepth then .ok (t.map Subtype.val) else .error .tooDeep := by
  have hlawful : ∀ v ∈ t.map Subtype.val, v.Lawful := by
    intro v hv
    obtain ⟨w, -, rfl⟩ := mem_map.mp hv
    exact w.property
  rw [decodeTupleBare, decodeValuesAll, bare, decodeValuesLoop_encodeTupleBare _ hlawful _ le_rfl]
  exact if_congr (by simp) rfl rfl

end Tuple

/-! ## Scan bounds -/

/-- A per-column scan bound (`ScanBound`). -/
inductive ScanBound where
  /-- Below every value. -/
  | least
  | value (v : DataValue)
  /-- Past every value. -/
  | greatest

def bareBoundsLower : List ScanBound → Bytes
  | [] => []
  | .value v :: bounds => encodeOwned v.val ++ bareBoundsLower bounds
  | .least :: _ => []
  | .greatest :: _ => [0xFF]

def bareBoundsUpper (bounds : List ScanBound) : Bytes := bareBoundsLower bounds

/-- How a row lies to a list of column bounds: the first sentinel decides for every longer row. -/
def cmpBounds : Tuple → List ScanBound → Ordering
  | [], [] => .eq
  | [], .least :: _ => .eq
  | [], .value _ :: _ => .lt
  | [], .greatest :: _ => .lt
  | _ :: _, [] => .gt
  | _ :: _, .least :: _ => .gt
  | v :: t, .value w :: bounds => (compare v w).then (cmpBounds t bounds)
  | _ :: _, .greatest :: _ => .lt

lemma tag_byte_lt (t : Tag) : t.byte.toNat < (0xFF : UInt8).toNat := by
  cases t <;> decide

lemma compare_encodeOwned_append (v w : DataValue) (s u : Bytes) :
    compare (encodeOwned v.val ++ s) (encodeOwned w.val ++ u) =
      (compare v w).then (compare s u) :=
  settles v.property w.property s u

/-- **Bytes compare with a bound as columns do.** -/
theorem compare_bareBoundsLower (t : Tuple) (bounds : List ScanBound) :
    compare t.bare (bareBoundsLower bounds) = cmpBounds t bounds := by
  induction t, bounds using cmpBounds.induct with
  | case1 | case2 | case4 => rfl
  | case3 w bounds =>
    obtain ⟨rest, hrest⟩ := encodeOwned_eq_cons w.val
    simp [bareBoundsLower, cmpBounds, hrest]
  | case5 v | case6 v =>
    obtain ⟨rest, hrest⟩ := encodeOwned_eq_cons v.val
    simp [bareBoundsLower, cmpBounds, hrest]
  | case7 v t w bounds ih =>
    rw [Tuple.bare_cons, bareBoundsLower, compare_encodeOwned_append, cmpBounds, ih]
  | case8 v t bounds =>
    obtain ⟨rest, hrest⟩ := encodeOwned_eq_cons v.val
    have hset := (Settles.of_head_lt (rest ++ Tuple.bare t) [] (tag_byte_lt v.val.tag)).compare_eq
    rw [Tuple.bare_cons, hrest]
    exact hset

lemma cmpBounds_isPrefix (p t : Tuple) :
    cmpBounds t (p.map .value) ≠ .lt ∧ cmpBounds t (p.map .value ++ [.greatest]) ≠ .gt ↔
      p <+: t := by
  induction p generalizing t with
  | nil => rcases t with _ | ⟨v, t⟩ <;> simp [cmpBounds]
  | cons w p ih =>
    rcases t with _ | ⟨v, t⟩
    · simp [cmpBounds]
    · rw [map_cons, cons_append, cmpBounds, cmpBounds]
      rcases hc : compare v w
      · have hne : w ≠ v := by
          rintro rfl
          rw [(compare_eq_iff w w).mpr rfl] at hc
          cases hc
        simp [hne]
      · have heq := (compare_eq_iff v w).mp hc
        simp only [heq]
        simpa [Ordering.then] using ih t
      · have hne : w ≠ v := by
          rintro rfl
          rw [(compare_eq_iff w w).mpr rfl] at hc
          cases hc
        simp [hne]

end Kyzo

import Kyzo.Store.SkipWalk

/-!
# Scan keys bracket the rows they name

A scan of a stored relation runs between two keys: the relation prefix, the columns of a fixed
prefix, and column-wise bounds closed by the first sentinel.  A stored key lies between the two
exactly when its columns start with the prefix and the rest lies between the bounds.
-/

namespace Kyzo

open List DataValue Option

/-! ## The keys -/

def appendBounds : List ScanBound → Bool → Bytes
  | .value v :: bounds, upper => encodeOwned v.val ++ appendBounds bounds upper
  | .least :: _, _ => []
  | .greatest :: _, _ => [0xFF]
  | [], upper => if upper then [0xFF] else []

section

variable (rel : RelationId) (cols : Tuple) (bounds : List ScanBound)

def scanKeyLower : Bytes :=
  rel.rawEncode ++ cols.bare ++ appendBounds bounds false

def scanKeyUpper : Bytes :=
  rel.rawEncode ++ cols.bare ++ appendBounds bounds true

end

/-- The column loop of the projected keys; `none` is the index out of range. -/
def projectedBytes (row : Tuple) (cols : List ℕ) : Option Bytes :=
  (cols.mapM fun c => row[c]?.map fun v => encodeOwned v.val).map flatten

section

variable (rel : RelationId) (row : Tuple) (cols : List ℕ) (bounds : List ScanBound)

def scanKeyLowerProjected : Option Bytes :=
  (projectedBytes row cols).map fun bytes => rel.rawEncode ++ bytes ++ appendBounds bounds false

def scanKeyUpperProjected : Option Bytes :=
  (projectedBytes row cols).map fun bytes => rel.rawEncode ++ bytes ++ appendBounds bounds true

end

/-! ## What the bounds say of columns -/

/-- The columns lie at or above the bounds: `Least` is below everything, `Greatest` above. -/
def AtOrAbove : Tuple → List ScanBound → Prop
  | _, [] => True
  | _, .least :: _ => True
  | _, .greatest :: _ => False
  | [], .value _ :: _ => False
  | v :: t, .value w :: bounds => compare w v = .lt ∨ v = w ∧ AtOrAbove t bounds

/-- The columns lie at or below the bounds, which include every extension when they run out. -/
def AtOrBelow : Tuple → List ScanBound → Prop
  | _, [] => True
  | _, .greatest :: _ => True
  | t, .least :: _ => t = []
  | [], .value _ :: _ => True
  | v :: t, .value w :: bounds => compare v w = .lt ∨ v = w ∧ AtOrBelow t bounds

/-- A byte string lies in the closed range of two others. -/
def Between (lower key upper : Bytes) : Prop :=
  compare lower key ≠ .gt ∧ compare key upper ≠ .gt

/-- Upper bounds are closed by one more `Greatest`. -/
theorem appendBounds_eq (bounds : List ScanBound) (upper : Bool) :
    appendBounds bounds upper = bareBoundsLower (bounds ++ if upper then [.greatest] else []) := by
  induction bounds with
  | nil => cases upper <;> rfl
  | cons b bounds ih =>
    cases b with
    | least | greatest => rfl
    | value v => rw [appendBounds, cons_append, bareBoundsLower, ih]

lemma cmpBounds_ne_lt (t : Tuple) (bounds : List ScanBound) :
    cmpBounds t bounds ≠ .lt ↔ AtOrAbove t bounds := by
  induction bounds generalizing t with
  | nil => cases t <;> simp [cmpBounds, AtOrAbove]
  | cons b bounds ih =>
    cases b with
    | least | greatest => cases t <;> simp [cmpBounds, AtOrAbove]
    | value w =>
      cases t with
      | nil => simp [cmpBounds, AtOrAbove]
      | cons v t =>
        rw [cmpBounds, AtOrAbove, ← ih, ← compare_eq_iff v w,
          Std.OrientedOrd.eq_swap (a := w)]
        cases compare v w <;> simp

/-- Upper bounds that do not run out before the columns need not be closed. -/
theorem cmpBounds_ne_gt {t : Tuple} {bounds close : List ScanBound}
    (h : close = [.greatest] ∨ close = [] ∧ t.length ≤ bounds.length) :
    cmpBounds t (bounds ++ close) ≠ .gt ↔ AtOrBelow t bounds := by
  induction bounds generalizing t with
  | nil =>
    rcases h with rfl | ⟨rfl, hlen⟩
    · cases t <;> simp [cmpBounds, AtOrBelow]
    · simp [eq_nil_of_length_eq_zero (Nat.le_zero.mp hlen), cmpBounds, AtOrBelow]
  | cons b bounds ih =>
    cases b with
    | least | greatest => cases t <;> simp [cmpBounds, AtOrBelow]
    | value w =>
      cases t with
      | nil => simp [cmpBounds, AtOrBelow]
      | cons v t =>
        rw [cons_append, cmpBounds, AtOrBelow,
          ← ih (h.imp_right fun h => ⟨h.1, Nat.le_of_succ_le_succ h.2⟩), ← compare_eq_iff v w]
        cases compare v w <;> simp

/-! ## The bracket -/

lemma bareBoundsLower_prefix (p : Tuple) (bounds : List ScanBound) :
    bareBoundsLower (p.map .value ++ bounds) = p.bare ++ bareBoundsLower bounds := by
  induction p with
  | nil => rfl
  | cons v p ih =>
    rw [map_cons, cons_append, bareBoundsLower, ih, Tuple.bare_cons, append_assoc]

lemma compare_rawEncode (rel : RelationId) (a b : Bytes) :
    compare (rel.rawEncode ++ a) (rel.rawEncode ++ b) = compare a b := by
  rw [Settles.refl rel.rawEncode a b]
  rfl

lemma between_prefixed (p t : Tuple) (lo hi : List ScanBound) :
    AtOrAbove t (p.map .value ++ lo) ∧ AtOrBelow t (p.map .value ++ hi) ↔
      ∃ rest, t = p ++ rest ∧ AtOrAbove rest lo ∧ AtOrBelow rest hi := by
  induction p generalizing t with
  | nil => simp
  | cons w p ih =>
    cases t with
    | nil => simp [AtOrAbove]
    | cons v t =>
      simp only [map_cons, cons_append, AtOrAbove, AtOrBelow, cons.injEq]
      constructor
      · rintro ⟨hlow, hhigh⟩
        -- Strictly above and at or below, or the other way round, is impossible.
        have heq : v = w := by
          rcases hlow with hlt | ⟨heq, -⟩
          · rcases hhigh with hgt | ⟨heq, -⟩
            · rw [Std.OrientedOrd.eq_swap, hlt] at hgt
              cases hgt
            · exact heq
          · exact heq
        subst heq
        have hself : compare v v ≠ .lt := by
          rw [(compare_eq_iff v v).mpr rfl]
          decide
        obtain ⟨rest, ht, habove, hbelow⟩ :=
          (ih t).mp ⟨(hlow.resolve_left hself).2, (hhigh.resolve_left hself).2⟩
        exact ⟨rest, ⟨rfl, ht⟩, habove, hbelow⟩
      · rintro ⟨rest, ⟨rfl, ht⟩, habove, hbelow⟩
        obtain ⟨hlow, hhigh⟩ := (ih t).mpr ⟨rest, ht, habove, hbelow⟩
        exact ⟨.inr ⟨rfl, hlow⟩, .inr ⟨rfl, hhigh⟩⟩

lemma between_scanKeys (rel : RelationId) (r suffix p : Tuple) (lo hi : List ScanBound) :
    Between (scanKeyLower rel p lo) (encodeKeyWithSuffix rel r suffix) (scanKeyUpper rel p hi) ↔
      ∃ rest, r ++ suffix = p ++ rest ∧ AtOrAbove rest lo ∧ AtOrBelow rest hi := by
  have hkey : encodeKeyWithSuffix rel r suffix = rel.rawEncode ++ (r ++ suffix).bare := by
    rw [encodeKeyWithSuffix, Tuple.bare_append, append_assoc]
  have hlower : scanKeyLower rel p lo = rel.rawEncode ++ bareBoundsLower (p.map .value ++ lo) := by
    rw [scanKeyLower, appendBounds_eq, if_neg Bool.false_ne_true, append_nil,
      bareBoundsLower_prefix, append_assoc]
  have hupper : scanKeyUpper rel p hi =
      rel.rawEncode ++ bareBoundsLower ((p.map .value ++ hi) ++ [.greatest]) := by
    rw [scanKeyUpper, appendBounds_eq, append_assoc (p.map _), bareBoundsLower_prefix, append_assoc]
    rfl
  have habove : compare (scanKeyLower rel p lo) (encodeKeyWithSuffix rel r suffix) ≠ .gt ↔
      AtOrAbove (r ++ suffix) (p.map .value ++ lo) := by
    rw [hkey, hlower, compare_rawEncode, Std.OrientedOrd.eq_swap, compare_bareBoundsLower,
      ← cmpBounds_ne_lt]
    cases cmpBounds (r ++ suffix) (p.map .value ++ lo) <;> simp
  have hbelow : compare (encodeKeyWithSuffix rel r suffix) (scanKeyUpper rel p hi) ≠ .gt ↔
      AtOrBelow (r ++ suffix) (p.map .value ++ hi) := by
    rw [hkey, hupper, compare_rawEncode, compare_bareBoundsLower, cmpBounds_ne_gt (.inl rfl)]
  rw [Between, habove, hbelow, between_prefixed]

lemma between_append {t : Tuple} {bounds : List ScanBound} (s : Tuple)
    (h : bounds.length ≤ t.length) : (AtOrAbove (t ++ s) bounds ↔ AtOrAbove t bounds) ∧
      (AtOrBelow (t ++ s) bounds ↔ AtOrBelow t bounds) := by
  induction bounds generalizing t with
  | nil => simp [AtOrAbove, AtOrBelow]
  | cons b bounds ih =>
    cases t with
    | nil => simp at h
    | cons v t =>
      obtain ⟨habove, hbelow⟩ := ih (Nat.le_of_succ_le_succ h)
      cases b with
      | value w => simp [AtOrAbove, AtOrBelow, habove, hbelow]
      | _ => simp [AtOrAbove, AtOrBelow]

lemma columns_of_suffix (suffix : Tuple) {r p : Tuple} {lo hi : List ScanBound}
    (hlo : p.length + lo.length ≤ r.length) (hhi : p.length + hi.length ≤ r.length) :
    (∃ rest, r ++ suffix = p ++ rest ∧ AtOrAbove rest lo ∧ AtOrBelow rest hi) ↔
      ∃ rest, r = p ++ rest ∧ AtOrAbove rest lo ∧ AtOrBelow rest hi := by
  constructor
  · rintro ⟨rest, hsplit, habove, hbelow⟩
    have hfront : p <+: r := by
      refine prefix_of_prefix_length_le ⟨rest, rfl⟩ ⟨suffix, hsplit⟩ ?_
      omega
    obtain ⟨rest', rfl⟩ := hfront
    rw [append_assoc, append_cancel_left_eq] at hsplit
    rw [length_append] at hlo hhi
    rw [← hsplit, (between_append suffix (by omega)).1] at habove
    rw [← hsplit, (between_append suffix (by omega)).2] at hbelow
    exact ⟨rest', rfl, habove, hbelow⟩
  · rintro ⟨rest, rfl, habove, hbelow⟩
    rw [length_append] at hlo hhi
    refine ⟨rest ++ suffix, append_assoc .., ?_, ?_⟩
    · exact (between_append suffix (by omega)).1.mpr habove
    · exact (between_append suffix (by omega)).2.mpr hbelow

variable {rel rel' : RelationId}

lemma compare_other_relation (h : rel' ≠ rel) (a b : Bytes) :
    compare (rel'.rawEncode ++ a) (rel.rawEncode ++ b) = compare rel'.raw.toNat rel.raw.toNat ∧
      compare rel'.raw.toNat rel.raw.toNat ≠ .eq := by
  have hne : compare rel'.raw.toNat rel.raw.toNat ≠ .eq := by
    intro heq
    rw [Nat.compare_eq_eq, UInt64.toNat_inj] at heq
    apply h
    obtain ⟨raw, below⟩ := rel
    obtain ⟨raw', below'⟩ := rel'
    simpa using heq
  have hlt := rel.below
  have hlt' := rel'.below
  have hsettles : Settles (compare rel'.raw.toNat rel.raw.toNat) rel'.rawEncode rel.rawEncode :=
    Settles.beBytes (by omega) (by omega)
  refine ⟨?_, hne⟩
  rw [hsettles a b]
  cases hc : compare rel'.raw.toNat rel.raw.toNat with
  | eq => exact absurd hc hne
  | lt | gt => rfl

lemma not_between_other (h : rel' ≠ rel) (r suffix p : Tuple) (lo hi : List ScanBound) :
    ¬ Between (scanKeyLower rel p lo) (encodeKeyWithSuffix rel' r suffix)
      (scanKeyUpper rel p hi) := by
  rintro ⟨hlower, hupper⟩
  rw [scanKeyLower, encodeKeyWithSuffix, append_assoc, append_assoc,
    Std.OrientedOrd.eq_swap, (compare_other_relation h _ _).1] at hlower
  rw [scanKeyUpper, encodeKeyWithSuffix, append_assoc, append_assoc,
    (compare_other_relation h _ _).1] at hupper
  have hne := (compare_other_relation h [] []).2
  cases hc : compare rel'.raw.toNat rel.raw.toNat <;> simp_all

lemma projectedBytes_eq (row : Tuple) (cols : List ℕ) :
    projectedBytes row cols = (cols.mapM fun c => row[c]?).map Tuple.bare := by
  unfold projectedBytes
  induction cols with
  | nil => rfl
  | cons c cols ih =>
    simp only [mapM_cons]
    cases hc : row[c]? with
    | none => rfl
    | some v =>
      cases hrest : cols.mapM fun c => row[c]? with
      | none =>
        rw [hrest] at ih
        simp only [map_none, map_eq_none_iff] at ih
        rw [ih]
        rfl
      | some t =>
        rw [hrest] at ih
        obtain ⟨bs, hbs, hflat⟩ := map_eq_some_iff.mp ih
        rw [hbs]
        simp [Option.map_some, Option.bind_eq_bind, Option.bind_some, Option.pure_def,
          flatten_cons, hflat, Tuple.bare_cons]

/-- **Scan keys bracket rows.**  A stored key of the relation lies between the scan keys exactly
when its columns, the suffix after the row, start with the prefix and go on at or above the lower
and at or below the upper bounds.  The suffix has no say when the prefix and the bounds fit in the
row.  Keys of other relations are never inside, and the projected keys are the keys of the
projected row. -/
theorem scan_keys_bracket (rel : RelationId) (r suffix p : Tuple) (lo hi : List ScanBound) :
    (Between (scanKeyLower rel p lo) (encodeKeyWithSuffix rel r suffix) (scanKeyUpper rel p hi) ↔
      ∃ rest, r ++ suffix = p ++ rest ∧ AtOrAbove rest lo ∧ AtOrBelow rest hi) ∧
    (p.length + lo.length ≤ r.length → p.length + hi.length ≤ r.length →
      (Between (scanKeyLower rel p lo) (encodeKeyWithSuffix rel r suffix) (scanKeyUpper rel p hi) ↔
        ∃ rest, r = p ++ rest ∧ AtOrAbove rest lo ∧ AtOrBelow rest hi)) ∧
    (∀ rel', rel' ≠ rel → ¬ Between (scanKeyLower rel p lo) (encodeKeyWithSuffix rel' r suffix)
      (scanKeyUpper rel p hi)) ∧
    (∀ (row : Tuple) (cols : List ℕ) (bounds : List ScanBound),
      scanKeyLowerProjected rel row cols bounds =
        (cols.mapM fun c => row[c]?).map (fun q => scanKeyLower rel q bounds) ∧
      scanKeyUpperProjected rel row cols bounds =
        (cols.mapM fun c => row[c]?).map fun q => scanKeyUpper rel q bounds) := by
  refine ⟨between_scanKeys rel r suffix p lo hi, ?_, ?_, ?_⟩
  · intro hlo hhi
    rw [between_scanKeys, columns_of_suffix _ hlo hhi]
  · intro rel' h
    exact not_between_other h r suffix p lo hi
  · intro row cols bounds
    rw [scanKeyLowerProjected, scanKeyUpperProjected, projectedBytes_eq, Option.map_map,
      Option.map_map]
    exact ⟨rfl, rfl⟩

/-- The empty row with a suffix column lies inside a scan for that column, though the row itself
does not start with it. -/
theorem scan_keys_suffix_column :
    Between (scanKeyLower ⟨7, by decide⟩ [.null] []) (encodeKeyWithSuffix ⟨7, by decide⟩ [] [.null])
        (scanKeyUpper ⟨7, by decide⟩ [.null] []) ∧
      ¬ ∃ rest, ([] : Tuple) = [null] ++ rest ∧ AtOrAbove rest [] ∧ AtOrBelow rest [] := by
  constructor
  · rw [between_scanKeys]
    exact ⟨[], rfl, trivial, trivial⟩
  · rintro ⟨rest, h, -⟩
    cases h

end Kyzo

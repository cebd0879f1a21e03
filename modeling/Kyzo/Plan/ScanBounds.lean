import Kyzo.Plan.ScanRange

/-!
# Scan bounds of columns

The ranges that `compute_bounds` leaves of several columns.  A row that all filters let pass lies
between the bounds of its columns exactly where no filter loses a column, so a scan over the bounds
misses no other row.
-/

namespace Kyzo

open List Ordering RawValue

namespace Expr

variable {lib : Library} {env : Symbol → Option DataValue} {target : Symbol}

lemma columnRange_append (filters : List Expr) (f : Expr) : columnRange (filters ++ [f]) target = do
      let r ← columnRange filters target
      let s ← f.extractBound target
      return r.merge s := by
  simp [columnRange, foldlM_append, foldlM_cons, foldlM_nil, bind_pure]

variable {r : ValueRange} {filters : List Expr}

lemma columnRange_append_eq_ok {f : Expr} (h : columnRange (filters ++ [f]) target = .ok r) :
    ∃ r₀ s, columnRange filters target = .ok r₀ ∧ f.extractBound target = .ok s ∧
      r = r₀.merge s := by
  rw [columnRange_append] at h
  obtain ⟨r₀, hr₀, h⟩ := bind_ok h
  obtain ⟨s, hs, h⟩ := bind_ok h
  exact ⟨r₀, s, hr₀, hs, (Except.ok.inj h).symm⟩

section

variable {w : DataValue} (hr : columnRange filters target = .ok r)
include hr

lemma columnRange_contains (hw : env target = some w)
    (htrue : ∀ f ∈ filters, f.predIn lib env = .ok true)
    (hkeep : ∀ f ∈ filters, ¬ f.Loses target w) : r.Contains w := by
  induction filters using reverseRecOn generalizing r with
  | nil =>
    cases hr
    exact ValueRange.contains_all w
  | append_singleton filters f ih =>
    obtain ⟨r₀, s, hr₀, hs, rfl⟩ := columnRange_append_eq_ok hr
    simp only [forall_mem_append, forall_mem_singleton] at htrue hkeep
    exact (ih hr₀ htrue.1 hkeep.1).merge (extractBound_contains hs hw htrue.2 hkeep.2)

lemma extractBound_of_columnRange (h : r.Contains w) :
    ∀ f ∈ filters, ∃ s, f.extractBound target = .ok s ∧ s.Contains w := by
  induction filters using reverseRecOn generalizing r with
  | nil => simp
  | append_singleton filters f ih =>
    obtain ⟨r₀, s, hr₀, hs, rfl⟩ := columnRange_append_eq_ok hr
    rw [forall_mem_append, forall_mem_singleton]
    exact ⟨ih hr₀ h.of_merge.1, s, hs, h.of_merge.2⟩

lemma columnRange_contains_iff (hw : env target = some w)
    (htrue : ∀ f ∈ filters, f.predIn lib env = .ok true) :
    r.Contains w ↔ ∀ f ∈ filters, ¬ f.Loses target w := by
  refine ⟨fun h f hf hloses => ?_, columnRange_contains hr hw htrue⟩
  obtain ⟨s, hs, hkept⟩ := extractBound_of_columnRange hr h f hf
  exact hloses.not_contains hs hkept

end

/-- The columns of a row lie between the lower and the upper bounds. -/
def Brackets (bounds : List ScanBound × List ScanBound) (row : Tuple) : Prop :=
  List.Forall₂ (fun lower v => lower.Le (.value v)) bounds.1 row ∧
    List.Forall₂ (fun v upper => ScanBound.Le (.value v) upper) row bounds.2

lemma brackets_cons {ranges : List ValueRange} {v : DataValue} {row : Tuple} :
    Brackets ((r :: ranges).map (·.lower), (r :: ranges).map (·.upper)) (v :: row) ↔
      r.Contains v ∧ Brackets (ranges.map (·.lower), ranges.map (·.upper)) row := by
  simp only [Brackets, map_cons, forall₂_cons, ValueRange.Contains]
  tauto

/-- **Scan bounds of a row that all filters let pass.**  It lies between them exactly where no
filter loses the value of a column. -/
theorem computeBounds_brackets_iff {filters : List Expr} {symbols : List Symbol} {row : Tuple}
    {bounds : List ScanBound × List ScanBound} (h : computeBounds filters symbols = .ok bounds)
    (hrow : List.Forall₂ (fun s w => env s = some w) symbols row)
    (htrue : ∀ f ∈ filters, f.predIn lib env = .ok true) :
    Brackets bounds row ↔ ∀ column ∈ symbols.zip row, ∀ f ∈ filters,
      ¬ f.Loses column.1 column.2 := by
  obtain ⟨ranges, hranges, hbounds⟩ := bind_ok h
  obtain rfl := Except.ok.inj hbounds
  clear h hbounds
  induction hrow generalizing ranges with
  | nil =>
    cases hranges
    simp [Brackets]
  | @cons s w symbols row hw _ ih =>
    rw [mapM_cons] at hranges
    obtain ⟨r, hr, hranges⟩ := bind_ok hranges
    obtain ⟨rest, hrest, hranges⟩ := bind_ok hranges
    cases hranges
    rw [brackets_cons, columnRange_contains_iff hr hw htrue, ih rest hrest, zip_cons_cons,
      forall_mem_cons]

/-- `a <= c`. -/
def atMost (c : DataValue) : Expr := .apply .le [.binding ⟨"a"⟩ .unresolved, .const c]

/-- `a <= 9007199254740993` holds of its own constant, which lies above the bound the constant is
rounded to. -/
theorem computeBounds_rounds_down : ∃ (row : Tuple) (bounds : List ScanBound × List ScanBound),
      row = [.num (.int 9007199254740993)] ∧
      computeBounds [atMost (.num (.int 9007199254740993))] [⟨"a"⟩] = .ok bounds ∧
      (∀ lib : Library, (atMost (.num (.int 9007199254740993))).predIn lib (fun _ => row.head?) =
        .ok true) ∧
      ¬ Brackets bounds row := by
  refine ⟨_, _, rfl, rfl, fun lib => rfl, ?_⟩
  rintro ⟨-, hupper⟩
  cases hupper with
  | cons h _ =>
    have hle : (compare (DataValue.num (.int 9007199254740993))
      (.num (.float (F64.ofInt 9007199254740993)))).isLE = true := h
    exact absurd hle (by decide +kernel)

/-- `a <= 5` on a row with 5. -/
theorem computeBounds_brackets_five :
    ∃ bounds, computeBounds [atMost (.num (.int 5))] [⟨"a"⟩] = .ok bounds ∧
      Brackets bounds [.num (.int 5)] := by
  have htrue : ∀ f ∈ [atMost (.num (.int 5))],
      f.predIn (fun op _ => .error (.raised op.name)) (fun _ => some (.num (.int 5))) =
        .ok true := by
    rw [forall_mem_singleton]
    rfl
  refine ⟨_, rfl, (computeBounds_brackets_iff rfl (.cons rfl .nil) htrue).mpr ?_⟩
  simp only [zip_cons_cons, zip_nil_right, forall_mem_singleton]
  rintro (⟨c, m, hconst, hm, hlt, -⟩ | ⟨s, l, hconst, -⟩)
  · have hc : Num.int 5 = .int c := num.inj (congrArg Subtype.val (Option.some.inj hconst))
    obtain rfl : Num.int 5 = m := num.inj (congrArg Subtype.val hm)
    obtain rfl : (5 : Int64) = c := NumRepr.int.inj (congrArg Num.repr hc)
    exact absurd hlt (by decide +kernel)
  · cases hconst

end Expr

end Kyzo

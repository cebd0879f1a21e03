import Kyzo.Lib.MergeFold
import Kyzo.Exec.AggrFlags

/-!
# The lattice folds do not depend on the order

`and`, `or`, `union`, `intersection`, `min` and `max` fold the values of a group in any order, and
in parts that are merged, to the same accumulator.  For each operation we say which accumulators
stand for which multisets of values; an update then adds multisets up, and the accumulator is
determined by what it stands for.
-/

namespace Kyzo

open List Option Std Multiset DataValue MeetAggr MeetAccum

variable {op : MeetAggr}

namespace MeetAggr

variable (op)

/-- One value folded into an accumulator. -/
def put (acc : MeetAccum) (v : DataValue) : Except AggrError MeetAccum :=
  (op.update acc (.fromDerived v)).map Prod.snd

/-- The fold of values from the operation's identity. -/
def fold (values : List DataValue) : Except AggrError MeetAccum := values.foldlM op.put op.initVal

/-- What `merge_in` keeps of a held accumulator: the updated one if the update reports a change, and
the held one if not. -/
def merge (held incoming : MeetAccum) : Except AggrError MeetAccum :=
  (op.update held incoming).map fun r => if r.1 then r.2 else held

/-- Accumulators merged one after the other, the first as it comes. -/
def mergeAll (accs : List MeetAccum) : Except AggrError (Option MeetAccum) :=
  accs.foldlM (MergeFold.keep op.merge) none

/-- The lattice folds. -/
def isLattice : MeetAggr → Bool
  | .and | .or | .union | .intersection | .min | .max => true
  | _ => false

end MeetAggr

/-! ## What accumulators stand for -/

/-- The values that can be folded by an operation in any order. -/
def MeetAggr.Valid : MeetAggr → Multiset DataValue → Prop
  | .and, m | .or, m => ∀ v ∈ m, ∃ b, v = .bool b
  | .union, m => ∀ v ∈ m, v.elements.isSome = true
  | .intersection, m => (∀ v ∈ m, v.elements.isSome = true) ∨ m.card ≤ 1
  | .min, m | .max, m =>
    (∀ v ∈ m, v ≠ .null → ∃ n, v = .num n) ∨ (m.filter fun v => v ≠ .null).card ≤ 1
  | _, _ => False

/-- A value is an element of a list or of a set. -/
def DataValue.HasElement (v x : DataValue) : Prop := ∃ items, v.elements = some items ∧ x ∈ items

/-- A collection of what the collections `m` have in common. -/
def HoldsCommon (m : Multiset DataValue) (v : DataValue) : Prop :=
  (∀ w ∈ m, w.elements.isSome = true) ∧
    ∃ s, v.collectSet = some s ∧ ∀ x, x ∈ s ↔ ∀ w ∈ m, w.HasElement x

/-- A value that is not skipped, and wins over all the others that are not. -/
def IsExtremum (wins : Num → Num → Bool) (m : Multiset DataValue) (v : DataValue) : Prop :=
  v ∈ m ∧ v ≠ .null ∧ ∀ w ∈ m, w ≠ .null → w = v ∨ ∃ n k, v = .num n ∧ w = .num k ∧ wins n k = true

/-- An accumulator of `min` or `max` for the values `m`. -/
def StandsForExtremum (wins : Num → Num → Bool) (a : MeetAccum) (m : Multiset DataValue) : Prop :=
  (a = .empty ∧ ∀ v ∈ m, v = .null) ∨ ∃ v, a = .value v ∧ IsExtremum wins m v

/-- The accumulators an operation can have after the values `m`. -/
def MeetAggr.StandsFor : MeetAggr → MeetAccum → Multiset DataValue → Prop
  | .and, a, m => ∃ b, a = .value (.bool b) ∧ (b = true ↔ ∀ v ∈ m, v = .bool true)
  | .or, a, m => ∃ b, a = .value (.bool b) ∧ (b = true ↔ ∃ v ∈ m, v = .bool true)
  | .union, a, m =>
    ∃ v s, a = .value v ∧ v.collectSet = some s ∧ ∀ x, x ∈ s ↔ ∃ w ∈ m, w.HasElement x
  | .intersection, a, m => (a = .empty ∧ m = 0) ∨ ∃ v, a = .value v ∧ m ≠ 0 ∧
    (m = {v} ∨ HoldsCommon m v)
  | .min, a, m => StandsForExtremum (fun r l => r.cmp l == .lt) a m
  | .max, a, m => StandsForExtremum (fun r l => r.cmp l == .gt) a m
  | _, _, _ => False

/-- What comes in stands for a multiset, or is one value. -/
def MeetAggr.Brings (op : MeetAggr) (b : MeetAccum) (m : Multiset DataValue) : Prop :=
  op.StandsFor b m ∨ ∃ v, b = .value v ∧ m = {v}

/-- An update adds up what the operands stand for, and an operand that does not move stands for the
sum. -/
def MeetAggr.Adds (op : MeetAggr) : Prop :=
  ∀ {a b : MeetAccum} {m m' : Multiset DataValue}, op.StandsFor a m → op.Brings b m' →
    op.Valid (m + m') → ∃ changed out, op.update a b = .ok (changed, out) ∧
      op.StandsFor out (m + m') ∧ (changed = false → op.StandsFor a (m + m'))

/-! ## Truth values -/

lemma adds_of_canon {op : MeetAggr} (hcanon : op.canon = id)
    (h : ∀ {a b : MeetAccum} {m m' : Multiset DataValue}, op.StandsFor a m → op.Brings b m' →
      op.Valid (m + m') → ∃ changed out, op.update a b = .ok (changed, out) ∧
        op.StandsFor out (m + m')) : op.Adds := by
  intro a b m m' ha hb hvalid
  obtain ⟨changed, out, hupdate, hout⟩ := h ha hb hvalid
  refine ⟨changed, out, hupdate, hout, ?_⟩
  rintro rfl
  have hsame := canon_of_unchanged hupdate
  rw [hcanon] at hsame
  rwa [← show out = a from hsame]

lemma adds_and : and.Adds := by
  refine adds_of_canon rfl ?_
  rintro a b m m' ⟨l, rfl, hl⟩ hb hvalid
  have hbrings : ∃ r, b = .value (.bool r) ∧ (r = true ↔ ∀ v ∈ m', v = .bool true) := by
    rcases hb with hb | ⟨v, rfl, rfl⟩
    · exact hb
    · obtain ⟨r, rfl⟩ := hvalid v (by simp)
      cases r <;> simp [DataValue.bool]
  obtain ⟨r, rfl, hr⟩ := hbrings
  refine ⟨_, _, rfl, l && r, rfl, ?_⟩
  rw [Bool.and_eq_true, hl, hr]
  simp [mem_add, or_imp, forall_and]

lemma adds_or : or.Adds := by
  refine adds_of_canon rfl ?_
  rintro a b m m' ⟨l, rfl, hl⟩ hb hvalid
  have hbrings : ∃ r, b = .value (.bool r) ∧ (r = true ↔ ∃ v ∈ m', v = .bool true) := by
    rcases hb with hb | ⟨v, rfl, rfl⟩
    · exact hb
    · obtain ⟨r, rfl⟩ := hvalid v (by simp)
      cases r <;> simp [DataValue.bool]
  obtain ⟨r, rfl, hr⟩ := hbrings
  refine ⟨_, _, rfl, l || r, rfl, ?_⟩
  rw [Bool.or_eq_true, hl, hr]
  simp [mem_add]

/-! ## Sets -/

variable {v : DataValue}

namespace DataValue

variable {s : TreeSet DataValue compare}

lemma mem_collectSet (h : v.collectSet = some s) (x : DataValue) : x ∈ s ↔ v.HasElement x := by
  obtain ⟨items, hitems, rfl⟩ := map_eq_some_iff.mp h
  rw [TreeSet.mem_ofList, contains_iff_mem]
  constructor
  · exact fun hx => ⟨items, hitems, hx⟩
  · rintro ⟨items', hitems', hx⟩
    rwa [some.inj (hitems.symm.trans hitems')]

lemma exists_collectSet (h : v.elements.isSome = true) : ∃ s, v.collectSet = some s := by
  obtain ⟨items, hitems⟩ := isSome_iff_exists.mp h
  exact ⟨_, by rw [collectSet, hitems]; rfl⟩

lemma exists_collectSet_set {P : DataValue → Prop} (hs : ∀ x, x ∈ s ↔ P x) :
    ∃ t, (set s).collectSet = some t ∧ ∀ x, x ∈ t ↔ P x := by
  obtain ⟨t, ht, hmem⟩ := collectSet_set s
  exact ⟨t, ht, fun x => (hmem x).trans (hs x)⟩

end DataValue

lemma adds_union : union.Adds := by
  rintro a b m m' ⟨v, s, rfl, hv, hs⟩ hb hvalid
  have hbrings : ∃ w t, b = .value w ∧ w.collectSet = some t ∧
      ∀ x, x ∈ t ↔ ∃ u ∈ m', u.HasElement x := by
    rcases hb with hb | ⟨w, rfl, rfl⟩
    · exact hb
    · obtain ⟨t, ht⟩ := exists_collectSet (hvalid w (by simp))
      exact ⟨w, t, rfl, ht, fun x => by simpa using mem_collectSet ht x⟩
  obtain ⟨w, t, rfl, hw, ht⟩ := hbrings
  obtain ⟨items, hitems, -⟩ := map_eq_some_iff.mp hw
  have hmem : ∀ x, x ∈ items ↔ ∃ u ∈ m', u.HasElement x := by
    intro x
    rw [← ht, mem_collectSet hw]
    constructor
    · exact fun hx => ⟨items, hitems, hx⟩
    · rintro ⟨items', hitems', hx⟩
      rwa [some.inj (hitems.symm.trans hitems')] at *
  have hsum : ∀ x, (∃ u ∈ m + m', u.HasElement x) ↔ x ∈ s ∨ x ∈ items := by
    intro x
    rw [hs, hmem]
    simp [mem_add, or_and_right, exists_or]
  have hupdate : union.update (.value v) (.value w) =
      .ok ((insertAll s items).1, .value (.set (insertAll s items).2)) := by
    simp [update, updateWith, unionUpdate, hv, hitems]
  refine ⟨_, _, hupdate, ?_, fun hsame => ?_⟩
  · obtain ⟨t', ht', hmem'⟩ := exists_collectSet_set fun x =>
      mem_insertAll.trans (hsum x).symm
    exact ⟨_, t', rfl, ht', hmem'⟩
  · refine ⟨v, s, rfl, hv, fun x => ?_⟩
    rw [hsum, or_iff_left_of_imp (insertAll_unchanged.mp hsame x)]

variable {s t : TreeSet DataValue compare}

lemma intersectionUpdate_spec {v w : DataValue}
    (hv : v.collectSet = some s) (hw : w.collectSet = some t) :
    ∃ changed out u, intersectionUpdate v w = .ok (changed, out) ∧ out.collectSet = some u ∧
      (∀ x, x ∈ u ↔ x ∈ s ∧ x ∈ t) ∧ (changed = false ↔ ∀ x ∈ s, x ∈ t) := by
  by_cases hsize : s.size = (TreeSet.ofList (s.toList.filter t.contains) compare).size
  · have hsub := size_filter_eq_iff.mp hsize
    obtain ⟨u, hu, hmem⟩ := exists_collectSet_set fun x =>
      (and_iff_left_of_imp (hsub x)).symm
    refine ⟨false, .set s, u, ?_, hu, hmem, iff_of_true rfl hsub⟩
    simp [intersectionUpdate, hv, hw, if_pos hsize]
  · obtain ⟨u, hu, hmem⟩ := exists_collectSet_set
      (s := TreeSet.ofList (s.toList.filter t.contains) compare)
      fun x => by
        rw [TreeSet.mem_ofList, contains_iff_mem, mem_filter, TreeSet.mem_toList,
          TreeSet.contains_iff_mem]
    refine ⟨true, _, u, ?_, hu, hmem, iff_of_false (by decide) (mt size_filter_eq_iff.mpr hsize)⟩
    simp [intersectionUpdate, hv, hw, if_neg hsize]

variable {m : Multiset DataValue}

lemma holdsCommon_of_standsFor (hcoll : ∀ w ∈ m, w.elements.isSome = true)
    (h : m = {v} ∨ HoldsCommon m v) : HoldsCommon m v := by
  rcases h with rfl | h
  · obtain ⟨s, hs⟩ := exists_collectSet (hcoll v (by simp))
    exact ⟨hcoll, s, hs, fun x => by simpa using mem_collectSet hs x⟩
  · exact h

lemma adds_intersection : intersection.Adds := by
  intro a b m m' ha hb hvalid
  have hbrings : intersection.StandsFor b m' := by
    rcases hb with hb | ⟨w, rfl, rfl⟩
    · exact hb
    · exact .inr ⟨w, rfl, by simp, .inl rfl⟩
  rcases hbrings with ⟨rfl, rfl⟩ | ⟨w, rfl, hm', hw⟩
  · rw [add_zero]
    exact ⟨false, a, by rw [update, updateWith], ha, fun _ => ha⟩
  rcases ha with ⟨rfl, rfl⟩ | ⟨v, rfl, hm, hv⟩
  · rw [zero_add]
    exact ⟨true, .value w, rfl, .inr ⟨w, rfl, hm', hw⟩, fun h => Bool.noConfusion h⟩
  -- Two values came, so both are collections.
  have hcoll : ∀ u ∈ m + m', u.elements.isSome = true := by
    refine hvalid.resolve_right fun hcard => ?_
    have h1 := card_pos.mpr hm
    have h2 := card_pos.mpr hm'
    rw [card_add] at hcard
    omega
  obtain ⟨-, s, hvs, hs⟩ := holdsCommon_of_standsFor
    (fun u hu => hcoll u (mem_add.mpr (.inl hu))) hv
  obtain ⟨-, t, hwt, ht⟩ := holdsCommon_of_standsFor
    (fun u hu => hcoll u (mem_add.mpr (.inr hu))) hw
  have hsum : ∀ x, (∀ u ∈ m + m', u.HasElement x) ↔ x ∈ s ∧ x ∈ t := by
    intro x
    rw [hs, ht]
    simp [mem_add, or_imp, forall_and]
  have hne : m + m' ≠ 0 := fun h => hm (add_eq_zero.mp h).1
  obtain ⟨changed, out, u, hupdate, hout, hmem, hsub⟩ := intersectionUpdate_spec hvs hwt
  refine ⟨changed, .value out, ?_, ?_, fun hsame => ?_⟩
  · simp [update, updateWith, hupdate]
  · exact .inr ⟨out, rfl, hne, .inr ⟨hcoll, u, hout, fun x => (hmem x).trans (hsum x).symm⟩⟩
  · refine .inr ⟨v, rfl, hne, .inr ⟨hcoll, s, hvs, fun x => ?_⟩⟩
    rw [hsum, and_iff_left_of_imp (hsub.mp hsame x)]

/-! ## Least and greatest numbers -/

/-- A strict order on numbers, as a test. -/
structure IsStrictTotal (wins : Num → Num → Bool) : Prop where
  irrefl : ∀ n, wins n n = false
  trans : ∀ {n k l}, wins n k = true → wins k l = true → wins n l = true
  total : ∀ {n k}, wins n k = false → n = k ∨ wins k n = true

lemma compare_num (n k : Num) : compare (num n) (num k) = n.cmp k := rfl

variable {n k : Num}

lemma num_injective (h : num n = .num k) : n = k :=
  RawValue.num.inj (congrArg Subtype.val h)

lemma isStrictTotal_lt : IsStrictTotal fun r l => r.cmp l == .lt where
  irrefl n := by
    rw [Num.cmp_self]
    rfl
  trans h h' := by
    rw [beq_iff_eq, ← compare_num] at *
    exact TransCmp.lt_trans h h'
  total {n k} h := by
    rw [beq_eq_false_iff_ne] at h
    rw [beq_iff_eq, ← compare_num, ← OrientedCmp.gt_iff_lt]
    rcases hcmp : compare (num n) (.num k) with _ | _ | _
    · exact absurd hcmp h
    · exact .inl (num_injective (LawfulEqCmp.eq_of_compare hcmp))
    · exact .inr rfl

lemma IsStrictTotal.flip {wins : Num → Num → Bool} (h : IsStrictTotal wins) :
    IsStrictTotal fun r l => wins l r where
  irrefl := h.irrefl
  trans hn hk := h.trans hk hn
  total hn := (h.total hn).imp_left Eq.symm

lemma isStrictTotal_gt : IsStrictTotal fun r l => r.cmp l == .gt := by
  have hflip (r l : Num) : (r.cmp l == .gt) = (l.cmp r == .lt) := by
    rw [← compare_num, OrientedOrd.eq_swap, compare_num]
    cases l.cmp r <;> rfl
  simp only [hflip]
  exact isStrictTotal_lt.flip

variable {wins : Num → Num → Bool} {m' : Multiset DataValue}

lemma IsExtremum.add (hwins : IsStrictTotal wins) (hn : IsExtremum wins m (.num n))
    (hk : IsExtremum wins m' (.num k)) (h : n = k ∨ wins n k = true) :
    IsExtremum wins (m + m') (.num n) := by
  refine ⟨mem_add.mpr (.inl hn.1), hn.2.1, fun w hw hnull => ?_⟩
  rcases mem_add.mp hw with hw | hw
  · exact hn.2.2 w hw hnull
  rcases hk.2.2 w hw hnull with rfl | ⟨k', l, hk', rfl, hwin⟩
  · rcases h with rfl | h
    · exact .inl rfl
    · exact .inr ⟨n, k, rfl, rfl, h⟩
  · obtain rfl := num_injective hk'
    refine .inr ⟨n, l, rfl, rfl, ?_⟩
    rcases h with rfl | h
    · exact hwin
    · exact hwins.trans h hwin

variable {a : MeetAccum}

lemma StandsForExtremum.add_nulls (ha : StandsForExtremum wins a m) (hm' : ∀ v ∈ m', v = .null) :
    StandsForExtremum wins a (m + m') := by
  rcases ha with ⟨rfl, hm⟩ | ⟨v, rfl, hv, hnull, hwin⟩
  · refine .inl ⟨rfl, fun v hv => ?_⟩
    exact (mem_add.mp hv).elim (hm v) (hm' v)
  · refine .inr ⟨v, rfl, mem_add.mpr (.inl hv), hnull, fun w hw hne => ?_⟩
    exact (mem_add.mp hw).elim (hwin w · hne) fun hw => absurd (hm' w hw) hne

lemma IsExtremum.add_nulls
    (hv : IsExtremum wins m' v) (hm : ∀ v ∈ m, v = .null) : IsExtremum wins (m + m') v := by
  refine ⟨mem_add.mpr (.inr hv.1), hv.2.1, fun w hw hne => ?_⟩
  exact (mem_add.mp hw).elim (fun hw => absurd (hm w hw) hne) (hv.2.2 w · hne)

lemma StandsForExtremum.exists_num (ha : StandsForExtremum wins a m) (hn : .num n ∈ m) :
    ∃ k, a = .value (.num k) ∧ .num k ∈ m ∧ ∀ l, .num l ∈ m → k = l ∨ wins k l = true := by
  have hnull : ∀ l, num l ≠ .null := fun l h => nomatch congrArg Subtype.val h
  rcases ha with ⟨-, hm⟩ | ⟨v, rfl, hv, -, hwin⟩
  · exact absurd (hm _ hn) (hnull n)
  obtain ⟨k, rfl⟩ : ∃ k, v = .num k := by
    rcases hwin _ hn (hnull n) with h | ⟨k, -, h, -, -⟩
    · exact ⟨n, h.symm⟩
    · exact ⟨k, h⟩
  refine ⟨k, rfl, hv, fun l hl => ?_⟩
  rcases hwin _ hl (hnull l) with h | ⟨k', l', hk, hl', h⟩
  · exact .inl (num_injective h).symm
  · rw [num_injective hk, num_injective hl']
    exact .inr h

lemma extremumUpdate_empty {name : String} {w : DataValue}
    (hw : w ≠ .null) : extremumUpdate name wins .empty (.value w) = .ok (true, .value w) := by
  rw [extremumUpdate]
  · simp
  · exact fun hp h => hw (value.inj h)

/-- **One update of `min` or `max`.** -/
theorem extremumUpdate_adds (name : String) (hwins : IsStrictTotal wins) {b : MeetAccum}
    (ha : StandsForExtremum wins a m)
    (hb : StandsForExtremum wins b m' ∨ ∃ v, b = .value v ∧ m' = {v})
    (hvalid : (∀ v ∈ m + m', v ≠ .null → ∃ n, v = .num n) ∨
      ((m + m').filter fun v => v ≠ .null).card ≤ 1) :
    ∃ changed out, extremumUpdate name wins a b = .ok (changed, out) ∧
      StandsForExtremum wins out (m + m') := by
  have hcases : ((b = .empty ∨ b = .value .null) ∧ ∀ v ∈ m', v = .null) ∨
      ∃ w, b = .value w ∧ IsExtremum wins m' w := by
    rcases hb with (⟨rfl, hm'⟩ | hw) | ⟨v, rfl, rfl⟩
    · exact .inl ⟨.inl rfl, hm'⟩
    · exact .inr hw
    · by_cases hnull : v = .null
      · exact .inl ⟨.inr (by rw [hnull]), by simp [hnull]⟩
      · exact .inr ⟨v, rfl, by simp, hnull, fun w hw _ => .inl (Multiset.mem_singleton.mp hw)⟩
  rcases hcases with ⟨hskip, hm'⟩ | ⟨w, rfl, hw⟩
  · refine ⟨false, a, ?_, ha.add_nulls hm'⟩
    rcases hskip with rfl | rfl
    · rw [extremumUpdate]
    · rw [null, extremumUpdate]
  rcases ha with ⟨rfl, hm⟩ | ⟨v, rfl, hv⟩
  · exact ⟨true, .value w, extremumUpdate_empty hw.2.1, .inr ⟨w, rfl, hw.add_nulls hm⟩⟩
  -- Two values were not skipped, so both are numbers.
  have hnum : ∀ u ∈ m + m', u ≠ .null → ∃ n, u = .num n := by
    refine hvalid.resolve_right fun hcard => ?_
    rw [filter_add, card_add] at hcard
    have h1 : 0 < (m.filter fun v => v ≠ .null).card :=
      card_pos_iff_exists_mem.mpr ⟨v, mem_filter.mpr ⟨hv.1, hv.2.1⟩⟩
    have h2 : 0 < (m'.filter fun v => v ≠ .null).card :=
      card_pos_iff_exists_mem.mpr ⟨w, mem_filter.mpr ⟨hw.1, hw.2.1⟩⟩
    omega
  obtain ⟨n, rfl⟩ := hnum v (mem_add.mpr (.inl hv.1)) hv.2.1
  obtain ⟨k, rfl⟩ := hnum w (mem_add.mpr (.inr hw.1)) hw.2.1
  rcases hwin : wins k n with _ | _
  · refine ⟨false, .value (.num n), ?_, .inr ⟨_, rfl, hv.add hwins hw ?_⟩⟩
    · simp [num, extremumUpdate, hwin]
    · exact (hwins.total hwin).imp_left Eq.symm
  · refine ⟨true, .value (.num k), ?_, .inr ⟨_, rfl, ?_⟩⟩
    · simp [num, extremumUpdate, hwin]
    · rw [add_comm]
      exact hw.add hwins hv (.inr hwin)

lemma adds_min : min.Adds := by
  refine adds_of_canon rfl ?_
  intro a b m m' ha hb hvalid
  exact extremumUpdate_adds _ isStrictTotal_lt ha hb hvalid

lemma adds_max : max.Adds := by
  refine adds_of_canon rfl ?_
  intro a b m m' ha hb hvalid
  exact extremumUpdate_adds _ isStrictTotal_gt ha hb hvalid

/-! ## The folds are sound, and determined -/

namespace MeetAggr

variable (h : op.isLattice = true)
include h

lemma adds_of_isLattice : op.Adds := by
  cases op with
  | and => exact adds_and
  | or => exact adds_or
  | union => exact adds_union
  | intersection => exact adds_intersection
  | min => exact adds_min
  | max => exact adds_max
  | _ => cases h

omit h in
lemma Valid.mono (hle : m ≤ m') (h : op.Valid m') : op.Valid m := by
  have hsub : ∀ v ∈ m, v ∈ m' := fun v => mem_of_le hle
  have hextremum : ∀ {m m' : Multiset DataValue}, m ≤ m' →
      ((∀ v ∈ m', v ≠ .null → ∃ n, v = .num n) ∨ (m'.filter fun v => v ≠ .null).card ≤ 1) →
      (∀ v ∈ m, v ≠ .null → ∃ n, v = .num n) ∨ (m.filter fun v => v ≠ .null).card ≤ 1 := by
    intro m m' hle h
    refine h.imp (fun hall v hv => hall v (mem_of_le hle hv)) fun hcard => ?_
    exact (card_le_card (filter_le_filter _ hle)).trans hcard
  cases op with
  | and | or | union => exact fun v hv => h v (hsub v hv)
  | intersection =>
    exact h.imp (fun hall v hv => hall v (hsub v hv)) (card_le_card hle).trans
  | min | max => exact hextremum hle h
  | _ => exact h

lemma standsFor_initVal : op.StandsFor op.initVal 0 := by
  cases op with
  | and => exact ⟨true, rfl, by simp⟩
  | or => exact ⟨false, rfl, by simp⟩
  | union =>
    obtain ⟨t, ht, hmem⟩ := collectSet_set ∅
    refine ⟨_, t, rfl, ht, fun x => ?_⟩
    simp [hmem]
  | intersection => exact .inl ⟨rfl, rfl⟩
  | min | max => exact .inl ⟨rfl, by simp⟩
  | _ => cases h

/-- **The lattice folds are sound.** -/
theorem sound : MergeFold.Sound op.initVal op.put op.merge op.Valid op.StandsFor where
  mono := Valid.mono
  init := standsFor_initVal h
  put ha hvalid := by
    obtain ⟨changed, out, hupdate, hout, -⟩ :=
      adds_of_isLattice h ha (.inr ⟨_, rfl, rfl⟩) hvalid
    exact ⟨out, by rw [put, fromDerived, hupdate]; rfl, hout⟩
  join {a b m m'} ha hb hvalid := by
    obtain ⟨changed, out, hupdate, hout, hsame⟩ := adds_of_isLattice h ha (.inl hb) hvalid
    refine ⟨if changed then out else a, by rw [merge, hupdate]; rfl, ?_⟩
    cases changed
    · exact hsame rfl
    · exact hout

omit h

variable {a b : MeetAccum}

lemma extremum_unique (hwins : IsStrictTotal wins) (ha : StandsForExtremum wins a m)
    (hb : StandsForExtremum wins b m) : a = b := by
  rcases ha with ⟨rfl, hm⟩ | ⟨v, rfl, hv⟩
  · rcases hb with ⟨rfl, -⟩ | ⟨w, rfl, hw⟩
    · rfl
    · exact absurd (hm w hw.1) hw.2.1
  · rcases hb with ⟨rfl, hm⟩ | ⟨w, rfl, hw⟩
    · exact absurd (hm v hv.1) hv.2.1
    · rcases hv.2.2 w hw.1 hw.2.1 with rfl | ⟨n, k, rfl, rfl, hwin⟩
      · rfl
      rcases hw.2.2 _ hv.1 hv.2.1 with heq | ⟨k', n', hk, hn, hwin'⟩
      · rw [heq]
      · obtain rfl := num_injective hk
        obtain rfl := num_injective hn
        have := hwins.trans hwin hwin'
        rw [hwins.irrefl] at this
        cases this

lemma asSet_eq {v w : DataValue}
    {P : DataValue → Prop} (hv : v.collectSet = some s) (hw : w.collectSet = some t)
    (hs : ∀ x, x ∈ s ↔ P x) (ht : ∀ x, x ∈ t ↔ P x) : v.asSet = w.asSet := by
  rw [asSet, asSet, hv, hw]
  exact set_congr fun x => (hs x).trans (ht x).symm

/-- **Values determine the accumulator.** -/
theorem canon_eq_of_standsFor (ha : op.StandsFor a m) (hb : op.StandsFor b m) :
    op.canon a = op.canon b := by
  cases op with
  | and | or =>
    obtain ⟨l, rfl, hl⟩ := ha
    obtain ⟨r, rfl, hr⟩ := hb
    rw [Bool.eq_iff_iff.mpr (hl.trans hr.symm)]
  | union =>
    obtain ⟨v, s, rfl, hv, hs⟩ := ha
    obtain ⟨w, t, rfl, hw, ht⟩ := hb
    exact congrArg value (asSet_eq hv hw hs ht)
  | intersection =>
    rcases ha with ⟨rfl, hm⟩ | ⟨v, rfl, hm, hv⟩
    · rcases hb with ⟨rfl, -⟩ | ⟨w, rfl, hm', -⟩
      · rfl
      · exact absurd hm hm'
    rcases hb with ⟨rfl, hm'⟩ | ⟨w, rfl, -, hw⟩
    · exact absurd hm' hm
    by_cases hcoll : ∀ u ∈ m, u.elements.isSome = true
    · obtain ⟨-, s, hvs, hs⟩ := holdsCommon_of_standsFor hcoll hv
      obtain ⟨-, t, hwt, ht⟩ := holdsCommon_of_standsFor hcoll hw
      exact congrArg value (asSet_eq hvs hwt hs ht)
    · have hv' : m = {v} := hv.resolve_right fun h => hcoll h.1
      have hw' : m = {w} := hw.resolve_right fun h => hcoll h.1
      rw [singleton_inj.mp (hv'.symm.trans hw')]
  | min => exact extremum_unique isStrictTotal_lt ha hb
  | max => exact extremum_unique isStrictTotal_gt ha hb
  | _ => exact ha.elim

end MeetAggr

/-! ## Folds that succeed in every order -/

namespace MeetAggr

variable {values : List DataValue}

section

variable (hok : ∀ vs, vs.Perm values → ∃ a, op.fold vs = .ok a)
include hok

lemma update_initVal_of_mem (hv : v ∈ values) : ∃ r, op.update op.initVal (.value v) = .ok r := by
  obtain ⟨a, ha⟩ := hok _ (perm_cons_erase hv).symm
  obtain ⟨a', ha', -⟩ := bind_ok ha
  obtain ⟨r, hr, -⟩ := map_eq_ok.mp ha'
  exact ⟨r, hr⟩

lemma put_put_of_mem {v w : DataValue} (hv : v ∈ values) (hw : w ∈ values.erase v) :
    ∃ a r, op.put op.initVal v = .ok a ∧ op.update a (.value w) = .ok r := by
  obtain ⟨a, ha⟩ := hok (v :: w :: (values.erase v).erase w) <|
    ((perm_cons_erase hw).symm.cons v).trans (perm_cons_erase hv).symm
  obtain ⟨b, hb, ha⟩ := bind_ok ha
  obtain ⟨b', hb', -⟩ := bind_ok ha
  obtain ⟨r, hr, -⟩ := map_eq_ok.mp hb'
  exact ⟨b, r, hb, hr⟩

end

lemma num_of_extremumUpdate {name : String} {l r : DataValue}
    {res : Bool × MeetAccum} (hl : l ≠ .null) (hr : r ≠ .null)
    (h : extremumUpdate name wins (.value l) (.value r) = .ok res) : ∃ n, l = .num n := by
  obtain ⟨rawl, hrawl⟩ := l
  obtain ⟨rawr, hrawr⟩ := r
  cases rawl with
  | null => exact absurd rfl hl
  | num n => exact ⟨n, rfl⟩
  | _ =>
    cases rawr with
    | null => exact absurd rfl hr
    | _ => cases h

/-- **Values that `min` or `max` folds in every order.** -/
theorem extremum_valid {name : String}
    (hinit : op.initVal = .empty) (hupdate : op.update = extremumUpdate name wins)
    (hok : ∀ vs, vs.Perm values → ∃ a, op.fold vs = .ok a) :
    (∀ v ∈ (values : Multiset DataValue), v ≠ .null → ∃ n, v = .num n) ∨
      ((values : Multiset DataValue).filter fun v => v ≠ .null).card ≤ 1 := by
  by_contra hno
  push Not at hno
  obtain ⟨⟨v, hv, hnull, hnum⟩, hcard⟩ := hno
  -- There is another value that is not skipped.
  rw [← cons_erase hv, filter_cons_of_pos _ (by exact hnull), card_cons, Nat.lt_add_left_iff_pos,
    Multiset.card_pos_iff_exists_mem] at hcard
  obtain ⟨w, hw⟩ := hcard
  obtain ⟨hw, hwnull⟩ := Multiset.mem_filter.mp hw
  obtain ⟨a, res, ha, hres⟩ := put_put_of_mem hok (mem_coe.mp hv)
    (mem_coe.mp (by simpa using hw))
  obtain rfl : a = .value v := by
    rw [put, hupdate, hinit, fromDerived, extremumUpdate_empty hnull] at ha
    cases ha
    rfl
  rw [hupdate] at hres
  obtain ⟨n, rfl⟩ := num_of_extremumUpdate hnull hwnull hres
  exact hnum n rfl

lemma bools_of_ok {f : Bool → Bool → Bool} {g : ValueUpdate} (hg : ComputesBool f g) {b : Bool}
    (hupdate : op.update op.initVal = updateWith g (.value (.bool b)))
    (hok : ∀ vs, vs.Perm values → ∃ a, op.fold vs = .ok a) : ∀ v ∈ values, ∃ b, v = .bool b := by
  intro v hv
  obtain ⟨⟨changed, out⟩, hres⟩ := update_initVal_of_mem hok hv
  rw [hupdate] at hres
  obtain ⟨l', hres, -⟩ := updateWith_value hres
  obtain ⟨-, b, -, hb, -⟩ := hg hres
  exact ⟨b, hb⟩

/-- **Values that are folded in every order are valid.** -/
theorem valid_of_ok (h : op.isLattice = true)
    (hok : ∀ vs, vs.Perm values → ∃ a, op.fold vs = .ok a) :
    op.Valid (values : Multiset DataValue) := by
  cases op with
  | and => exact bools_of_ok computesBool_and rfl hok
  | or => exact bools_of_ok computesBool_or rfl hok
  | union =>
    intro v hv
    obtain ⟨⟨changed, out⟩, hres⟩ := update_initVal_of_mem hok hv
    obtain ⟨l', hres, -⟩ := updateWith_value hres
    obtain ⟨s, items, -, hitems, -⟩ := unionUpdate_eq_ok hres
    exact isSome_of_eq_some hitems
  | intersection =>
    by_contra hno
    rw [Valid] at hno
    push Not at hno
    obtain ⟨⟨v, hv, hnone⟩, hcard⟩ := hno
    rw [← cons_erase hv, card_cons, Nat.lt_add_left_iff_pos, card_pos_iff_exists_mem] at hcard
    obtain ⟨w, hw⟩ := hcard
    obtain ⟨a, ⟨changed, out⟩, ha, hres⟩ := put_put_of_mem hok (mem_coe.mp hv)
      (mem_coe.mp (by simpa using hw))
    cases ha
    obtain ⟨l', hres, -⟩ := updateWith_value hres
    obtain ⟨s, t, hs, -⟩ := intersectionUpdate_eq_ok hres
    obtain ⟨items, hitems, -⟩ := map_eq_some_iff.mp hs
    exact hnone (isSome_of_eq_some hitems)
  | min | max => exact extremum_valid rfl rfl hok
  | _ => cases h

end MeetAggr

/-- **The lattice folds do not depend on the order.**  If the values of a group can be folded in
every order, then all orders, and all splits into parts that are folded alone and merged, end in the
same accumulator (as a set for `union` and `intersection`).  For `min` and `max` it is the least or
the greatest number in the storage order. -/
theorem fold_order_independent {op : MeetAggr} (h : op.isLattice = true) {values : List DataValue}
    (hok : ∀ vs, vs.Perm values → ∃ a, op.fold vs = .ok a) :
    ∃ result,
      (∀ vs, vs.Perm values → ∃ a, op.fold vs = .ok a ∧ op.canon a = result) ∧
      (∀ parts : List (List DataValue), parts ≠ [] → parts.flatten.Perm values →
        ∃ accs a, parts.mapM op.fold = .ok accs ∧ op.mergeAll accs = .ok (some a) ∧
          op.canon a = result) ∧
      (∀ n, .num n ∈ values → op = .min → ∃ k, result = .value (.num k) ∧ .num k ∈ values ∧
        ∀ l, .num l ∈ values → k = l ∨ k.cmp l = .lt) ∧
      (∀ n, .num n ∈ values → op = .max → ∃ k, result = .value (.num k) ∧ .num k ∈ values ∧
        ∀ l, .num l ∈ values → k = l ∨ k.cmp l = .gt) := by
  have hvalid := valid_of_ok h hok
  have hsound := sound h
  obtain ⟨first, -, hfirst⟩ := hsound.fold hvalid
  refine ⟨op.canon first, fun vs hperm => ?_, fun parts hne hperm => ?_, fun n hn hop => ?_,
    fun n hn hop => ?_⟩
  · rw [← coe_eq_coe.mpr hperm] at hvalid hfirst
    obtain ⟨a, ha, hstands⟩ := hsound.fold hvalid
    exact ⟨a, ha, canon_eq_of_standsFor hstands hfirst⟩
  · rw [← coe_eq_coe.mpr hperm] at hvalid hfirst
    obtain ⟨accs, a, haccs, ha, hstands⟩ := hsound.merge hne hvalid
    exact ⟨accs, a, haccs, ha, canon_eq_of_standsFor hstands hfirst⟩
  · subst hop
    obtain ⟨k, rfl, hk, hleast⟩ := StandsForExtremum.exists_num hfirst hn
    exact ⟨k, rfl, hk, fun l hl => (hleast l hl).imp_right beq_iff_eq.mp⟩
  · subst hop
    obtain ⟨k, rfl, hk, hgreatest⟩ := StandsForExtremum.exists_num hfirst hn
    exact ⟨k, rfl, hk, fun l hl => (hgreatest l hl).imp_right beq_iff_eq.mp⟩

/-- An int beyond the exact integers of floats, a `null`, and the float next to it. -/
def closeNumbers : List DataValue :=
  [.num (.int 9007199254740993), .null, .num (.float ⟨0x4340000000000000⟩)]

/-- The float first, in a fold of its own. -/
def closeParts : List (List DataValue) :=
  [[.num (.float ⟨0x4340000000000000⟩)], [.null, .num (.int 9007199254740993)]]

theorem fold_order_independent_closeNumbers : ∃ accs, closeParts.mapM min.fold = .ok accs ∧
      min.mergeAll accs = .ok (some (.value (.num (.float ⟨0x4340000000000000⟩)))) := by
  have hvalid : min.Valid (closeNumbers : Multiset DataValue) :=
    .inl (by simp [closeNumbers])
  obtain ⟨result, hfold, hparts, -⟩ := @fold_order_independent .min rfl closeNumbers
    fun vs hperm => by
      rw [← coe_eq_coe.mpr hperm] at hvalid
      obtain ⟨a, ha, -⟩ := (sound rfl).fold hvalid
      exact ⟨a, ha⟩
  have hmin : min.fold closeNumbers =
      .ok (.value (.num (.float ⟨0x4340000000000000⟩))) := rfl
  obtain ⟨a, ha, rfl⟩ := hfold _ (.refl _)
  cases hmin.symm.trans ha
  have hperm : closeParts.flatten.Perm closeNumbers := reverse_perm closeNumbers
  obtain ⟨accs, a, haccs, ha, rfl⟩ := hparts closeParts (cons_ne_nil _ _) hperm
  exact ⟨accs, haccs, ha⟩

end Kyzo

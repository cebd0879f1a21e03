import Kyzo.Exec.DeltaStore

/-!
# What the changed flag of a meet says

An update that reports no change leaves an accumulator that stands for the same lattice element.
For all operations but two this means the same accumulator; `union` and `intersection` turn a list
into the set of its elements before they compare, and report only what happens after that, so a list
and its set have to count as the same element.
-/

namespace Kyzo

open List Std DataValue Option HyperLogLog Subtype

/-- The set a list or a set stands for; any other value stands for itself. -/
def DataValue.asSet (v : DataValue) : DataValue :=
  match v.collectSet with
  | some s => .set s
  | none => v

/-- Apply a reading of values to an accumulator. -/
def MeetAccum.canonWith (c : DataValue → DataValue) : MeetAccum → MeetAccum
  | .empty => .empty
  | .value v => .value (c v)

/-- What an accumulator of the operation stands for. -/
def MeetAggr.canon : MeetAggr → MeetAccum → MeetAccum
  | .union => MeetAccum.canonWith asSet
  | .intersection => MeetAccum.canonWith asSet
  | _ => id

/-! ## Sets -/

variable {s : TreeSet DataValue compare} {items : List DataValue} {v : DataValue}

/-- The loop of `union` inserts what it walks. -/
theorem mem_insertAll : v ∈ (insertAll s items).2 ↔ v ∈ s ∨ v ∈ items := by
  induction items generalizing s with
  | nil => simp [insertAll]
  | cons w items ih =>
    simp only [insertAll, ih, TreeSet.mem_insert, mem_cons, LawfulEqOrd.compare_eq_iff_eq]
    tauto

/-- The loop of `union` reports whether anything was missing. -/
theorem insertAll_unchanged : (insertAll s items).1 = false ↔ ∀ v ∈ items, v ∈ s := by
  induction items generalizing s with
  | nil => simp [insertAll]
  | cons w items ih =>
    simp only [insertAll, Bool.or_eq_false_iff, Bool.not_eq_false', ih, forall_mem_cons,
      TreeSet.contains_iff_mem, TreeSet.mem_insert, LawfulEqOrd.compare_eq_iff_eq]
    refine and_congr_right fun hw => forall₂_congr fun v hv => ?_
    constructor
    · rintro (rfl | hs)
      · exact hw
      · exact hs
    · exact .inr

lemma DataValue.mem_congr_of_set_eq {s t : TreeSet DataValue compare}
    (h : set s = set t) (v : DataValue) : v ∈ s ↔ v ∈ t := by
  have hitems : some s.toList = some t.toList := by
    rw [← elements_set, ← elements_set, h]
  rw [← TreeSet.mem_toList, ← TreeSet.mem_toList, some.inj hitems]

lemma DataValue.collectSet_set (s : TreeSet DataValue compare) :
    ∃ t, (set s).collectSet = some t ∧ ∀ v, v ∈ t ↔ v ∈ s := by
  refine ⟨_, by rw [collectSet, elements_set]; rfl, fun v => ?_⟩
  rw [TreeSet.mem_ofList, contains_iff_mem, TreeSet.mem_toList]

@[simp] lemma DataValue.asSet_set (s : TreeSet DataValue compare) : (set s).asSet = .set s := by
  obtain ⟨t, ht, hmem⟩ := collectSet_set s
  rw [asSet, ht]
  exact set_congr hmem

lemma collectSet_congr {l m : DataValue} (h : l.asSet = m.asSet) (hl : l.collectSet = some s) :
    ∃ t, m.collectSet = some t ∧ ∀ v, v ∈ s ↔ v ∈ t := by
  have hset : l.asSet = .set s := by rw [asSet, hl]
  rcases hm : m.collectSet with _ | t
  · -- A value that collects into nothing is not a set.
    have hself : m.asSet = m := by rw [asSet, hm]
    obtain ⟨t, ht, -⟩ := collectSet_set s
    rw [← hset, h, hself, hm] at ht
    cases ht
  · refine ⟨t, rfl, mem_congr_of_set_eq ?_⟩
    rw [← hset, h, asSet, hm]

/-! ## What an update does -/

/-- The cost of a `[payload, cost]` pair. -/
def DataValue.pairCost : DataValue → Option F64
  | ⟨.list items, h⟩ =>
    match elements ⟨.list items, h⟩ with
    | some [_, cost] => cost.getFloat
    | _ => none
  | _ => none

/-- A pair whose cost is NaN. -/
def MeetAccum.hasNanCost : MeetAccum → Bool
  | .empty => false
  | .value v => v.pairCost.any F64.isNaN

variable {op : ValueUpdate} {changed : Bool}
  {l r l' : DataValue} {left right out : MeetAccum}

lemma updateWith_value (h : updateWith op (.value l) (.value r) = .ok (changed, out)) :
    ∃ l', op l r = .ok (changed, l') ∧ out = .value l' := by
  rw [updateWith] at h
  rcases hres : op l r with e | ⟨c, l'⟩
  · rw [hres] at h
    cases h
  · rw [hres] at h
    cases h
    exact ⟨l', rfl, rfl⟩

/-- The operation computes `f` on truth values, and reports whether the left one moves. -/
def ComputesBool (f : Bool → Bool → Bool) (op : ValueUpdate) : Prop :=
  ∀ {l r changed l'}, op l r = .ok (changed, l') →
    ∃ a b, l = .bool a ∧ r = .bool b ∧ changed = (a != f a b) ∧ l' = .bool (f a b)

lemma computesBool_and : ComputesBool and andUpdate := by
  intro l r changed l' h
  revert h
  fun_cases andUpdate l r <;> intro h <;> cases h
  exact ⟨_, _, rfl, rfl, rfl, rfl⟩

lemma computesBool_or : ComputesBool or orUpdate := by
  intro l r changed l' h
  revert h
  fun_cases orUpdate l r <;> intro h <;> cases h
  exact ⟨_, _, rfl, rfl, rfl, rfl⟩

lemma unionUpdate_eq_ok (h : unionUpdate l r = .ok (changed, l')) :
    ∃ s items, l.collectSet = some s ∧ r.elements = some items ∧
      changed = (insertAll s items).1 ∧ l' = .set (insertAll s items).2 := by
  revert h
  fun_cases unionUpdate l r <;> intro h <;> cases h
  exact ⟨_, _, ‹_›, ‹_›, by simp_all⟩

lemma intersectionUpdate_eq_ok (h : intersectionUpdate l r = .ok (changed, l')) :
    ∃ s t, l.collectSet = some s ∧ r.collectSet = some t ∧
      if s.size = (TreeSet.ofList (s.toList.filter t.contains) compare).size then
        changed = false ∧ l' = .set s
      else changed = true ∧ l' = .set (TreeSet.ofList (s.toList.filter t.contains) compare) := by
  revert h
  fun_cases intersectionUpdate l r <;> intro h <;> cases h <;>
    refine ⟨_, _, ‹_›, ‹_›, ?_⟩ <;> split_ifs <;> first | exact ⟨rfl, rfl⟩ | contradiction

/-- What is common to two sets has the size of the first exactly if all of it is common. -/
theorem size_filter_eq_iff {t : TreeSet DataValue compare} :
    s.size = (TreeSet.ofList (s.toList.filter t.contains) compare).size ↔ ∀ x ∈ s, x ∈ t := by
  have hdistinct : (s.toList.filter t.contains).Pairwise fun a b => ¬compare a b = .eq :=
    s.distinct_toList.filter _
  rw [TreeSet.size_ofList hdistinct, ← TreeSet.length_toList, eq_comm, length_filter_eq_length_iff]
  simp

/-- What `min_cost` does on two pairs. -/
theorem minCostUpdate_cases (h : minCostUpdate l r = .ok (changed, l')) :
    ∃ prevCost curCost, l.pairCost = some prevCost ∧ r.pairCost = some curCost ∧
      changed = !prevCost.le curCost ∧ l' = if changed then r else l := by
  have hcost : ∀ {prev cur items : List DataValue} {f : F64}, costOf prev cur items = .ok f →
      ∃ payload cost, items = [payload, cost] ∧ cost.getFloat = some f := by
    intro prev cur items f hf
    revert hf
    fun_cases costOf prev cur items <;> intro hf <;> cases hf
    exact ⟨_, _, rfl, ‹_›⟩
  have hpair :
      ∀ {items : List RawValue} {hv : (RawValue.list items).Lawful} {payload cost : DataValue}
      {f : F64}, (elements ⟨.list items, hv⟩).getD [] = [payload, cost] →
      cost.getFloat = some f → pairCost ⟨.list items, hv⟩ = some f := by
    intro items hv payload cost f hitems hf
    rw [elements, getD_some] at hitems
    rw [pairCost, elements, hitems, ← hf]
  rw [minCostUpdate.eq_def] at h
  split at h
  · obtain ⟨curCost, hcur, h⟩ := bind_ok h
    obtain ⟨prevCost, hprev, h⟩ := bind_ok h
    obtain ⟨payload, cost, hitems, hfloat⟩ := hcost hcur
    obtain ⟨payload', cost', hitems', hfloat'⟩ := hcost hprev
    refine ⟨prevCost, curCost, hpair hitems' hfloat', hpair hitems hfloat, ?_⟩
    split_ifs at h with hle
    · cases h
      exact ⟨by rw [hle]; rfl, rfl⟩
    · cases h
      exact ⟨by rw [Bool.eq_false_of_not_eq_true hle]; rfl, rfl⟩
  · cases h

/-! ## Updates report what they do -/

variable {f : UInt8 → UInt8 → UInt8}

lemma foldBytes_changed_iff {l r : Bytes} :
    (foldBytes f l r).1 = true ↔ (foldBytes f l r).2 ≠ l := by
  induction l generalizing r with
  | nil => cases r <;> simp [foldBytes]
  | cons x l ih =>
    rcases r with _ | ⟨y, r⟩
    · simp [foldBytes]
    · simp only [foldBytes, Bool.or_eq_true, bne_iff_ne, ih, ne_eq, cons.injEq]
      tauto

/-- The operation reports a change exactly where the value moves, as `c` reads it. -/
def ReportsExactly (c : DataValue → DataValue) (op : ValueUpdate) : Prop :=
  ∀ {l r changed l'}, op l r = .ok (changed, l') → (changed = true ↔ c l' ≠ c l)

variable {c : DataValue → DataValue}

lemma updateWith_changed_iff
    (hop : ∀ {l r l'}, left = .value l → right = .value r → op l r = .ok (changed, l') →
      (changed = true ↔ c l' ≠ c l)) (h : updateWith op left right = .ok (changed, out)) :
    changed = true ↔ out.canonWith c ≠ left.canonWith c := by
  rcases right with _ | r
  · cases h
    simp
  rcases left with _ | l
  · rw [updateWith] at h
    · cases h
      exact iff_of_true rfl fun heq => nomatch heq
    · simp
  · obtain ⟨l', hl', rfl⟩ := updateWith_value h
    rw [hop rfl rfl hl', MeetAccum.canonWith, MeetAccum.canonWith, ne_eq, ne_eq,
      MeetAccum.value.injEq]

lemma bool_injective : Function.Injective bool := fun _ _ h =>
  RawValue.bool.inj (congrArg val h)

lemma ComputesBool.reports {f : Bool → Bool → Bool} (h : ComputesBool f op) :
    ReportsExactly id op := by
  intro l r changed l' hres
  obtain ⟨a, b, rfl, rfl, rfl, rfl⟩ := h hres
  rw [bne_iff_ne, ne_comm, id, id, bool_injective.ne_iff]

lemma unionUpdate_reports : ReportsExactly asSet unionUpdate := by
  intro l r changed l' h
  obtain ⟨s, items, hl, -, rfl, rfl⟩ := unionUpdate_eq_ok h
  rw [asSet_set, asSet, hl, ← Bool.not_eq_false, insertAll_unchanged, not_iff_not]
  constructor
  · intro hall
    refine set_congr fun v => ?_
    rw [mem_insertAll]
    exact or_iff_left_of_imp (hall v)
  · intro heq v hv
    exact (mem_congr_of_set_eq heq v).mp (mem_insertAll.mpr (.inr hv))

lemma intersectionUpdate_reports : ReportsExactly asSet intersectionUpdate := by
  intro l r changed l' h
  obtain ⟨s, t, hl, -, h⟩ := intersectionUpdate_eq_ok h
  have hset : l.asSet = .set s := by rw [asSet, hl]
  split_ifs at h with hsize
  · obtain ⟨rfl, rfl⟩ := h
    simp [hset]
  · obtain ⟨rfl, rfl⟩ := h
    rw [asSet_set, hset]
    refine iff_of_true rfl fun heq => hsize ?_
    exact (TreeSet.Equiv.of_forall_mem_iff (mem_congr_of_set_eq heq)).size_eq.symm

lemma F64.le_self (f : F64) : f.le f = !f.isNaN := by
  simp [F64.le]

lemma minCostUpdate_reports (h : minCostUpdate l r = .ok (changed, l'))
    (hnan : l = r → (MeetAccum.value l).hasNanCost = false) : changed = true ↔ l' ≠ l := by
  obtain ⟨prevCost, curCost, hprev, hcur, hflag, rfl⟩ := minCostUpdate_cases h
  cases changed with
  | false => simp
  | true =>
    rw [if_pos rfl]
    refine iff_of_true rfl ?_
    rintro rfl
    cases hprev.symm.trans hcur
    have hfalse := hnan rfl
    rw [MeetAccum.hasNanCost, hprev, any_some] at hfalse
    rw [F64.le_self, hfalse] at hflag
    cases hflag

lemma shortestUpdate_reports : ReportsExactly id shortestUpdate := by
  intro l r changed l' h
  revert h
  fun_cases shortestUpdate l r <;> intro h <;> cases h
  case case1.refl l hl r hr hlt =>
    refine iff_of_true rfl fun heq => ?_
    have hraw : RawValue.list r = .list l := congrArg val heq
    rw [RawValue.list.inj hraw] at hlt
    exact lt_irrefl _ hlt
  case case2.refl => simp

lemma bytes_ne_iff {b b' : Bytes} {hb' : (RawValue.bytes b').Lawful} :
    bytes b ≠ ⟨.bytes b', hb'⟩ ↔ b ≠ b' := by
  simp [bytes]

lemma bitUpdate_reports (name : String) : ReportsExactly id (bitUpdate name f) := by
  intro l r changed l' h
  revert h
  fun_cases bitUpdate name f l r <;> intro h <;> cases h
  case case1.refl => exact bne_iff_ne.trans bytes_ne_iff.symm
  case case3.refl left hl right hr hne hlen out hfold =>
    have hiff := foldBytes_changed_iff (f := f) (l := left) (r := right)
    rw [hfold] at hiff
    exact hiff.trans bytes_ne_iff.symm

lemma toValue_of_asHll {s : HyperLogLog defaultM} (h : asHll v = .ok s) : s.toValue = v := by
  revert h
  fun_cases asHll v with
  | case1 b hb =>
    fun_cases fromBytes b <;> intro h <;> cases h
    case case3.refl tag precision rest htag hprecision hlen =>
      rw [not_ne_iff] at htag hprecision
      rw [toValue, toBytes, ← htag, ← hprecision]
      rfl
  | case2 => exact nofun

lemma hllUnionUpdate_reports : ReportsExactly id hllUnionUpdate := by
  intro l r changed l' h
  obtain ⟨s, hs, h⟩ := bind_ok h
  obtain ⟨t, -, h⟩ := bind_ok h
  obtain ⟨hflag, rfl⟩ := Prod.mk.inj (Except.ok.inj h)
  cases changed with
  | false => simp [hflag]
  | true =>
    rw [hflag, ← toValue_of_asHll hs]
    refine iff_of_true rfl fun heq => foldBytes_changed_iff.mp hflag ?_
    have hbytes := RawValue.bytes.inj (congrArg val heq)
    exact (cons.inj (cons.inj hbytes).2).2

lemma Num.cmp_self (n : Num) : n.cmp n = .eq := (Num.settles n n).eq_iff.mpr rfl

lemma extremumUpdate_changed_iff {name : String} {wins : Num → Num → Bool}
    (hwins : ∀ n, wins n n = false) (h : extremumUpdate name wins left right = .ok (changed, out)) :
    changed = true ↔ out ≠ left := by
  revert h
  fun_cases extremumUpdate name wins left right <;> intro h <;> cases h
  case case5.refl l hl r hr hwin =>
    refine iff_of_true rfl fun heq => ?_
    have hraw : RawValue.num r = .num l := congrArg val (MeetAccum.value.inj heq)
    rw [RawValue.num.inj hraw, hwins] at hwin
    cases hwin
  case case3.refl hright hnull => exact iff_of_true rfl hright
  case case4.refl hvalue => exact iff_of_true rfl (hvalue _)
  all_goals simp

lemma canonWith_id (a : MeetAccum) : a.canonWith id = a := by
  cases a <;> rfl

/-- **A change is reported exactly when there is one**, unless a pair with a NaN cost meets itself
in `min_cost`. -/
theorem MeetAggr.changed_iff {op : MeetAggr} (h : op.update left right = .ok (changed, out))
    (hnan : op = .minCost → left = right → left.hasNanCost = false) :
    changed = true ↔ op.canon out ≠ op.canon left := by
  have hid : ∀ {f : ValueUpdate},
      (∀ {l r l'}, left = .value l → right = .value r → f l r = .ok (changed, l') →
        (changed = true ↔ l' ≠ l)) →
      updateWith f left right = .ok (changed, out) → (changed = true ↔ out ≠ left) := by
    intro f hf hrun
    have hcanon := updateWith_changed_iff (c := id) hf hrun
    rwa [canonWith_id, canonWith_id] at hcanon
  cases op with
  | and => exact hid (fun _ _ => computesBool_and.reports) h
  | or => exact hid (fun _ _ => computesBool_or.reports) h
  | union => exact updateWith_changed_iff (fun _ _ => unionUpdate_reports) h
  | intersection => exact updateWith_changed_iff (fun _ _ => intersectionUpdate_reports) h
  | min | max => exact extremumUpdate_changed_iff (fun n => by rw [Num.cmp_self]; rfl) h
  | minCost =>
    refine hid (fun hl hr hres => minCostUpdate_reports hres fun hlr => ?_) h
    rw [← hl]
    exact hnan rfl (by rw [hl, hr, hlr])
  | shortest => exact hid (fun _ _ => shortestUpdate_reports) h
  | choice =>
    refine hid (f := fun l _ => .ok (false, l)) (fun _ _ hres => ?_) h
    cases hres
    simp
  | bitAnd | bitOr => exact hid (fun _ _ => bitUpdate_reports _) h
  | hllUnion => exact hid (fun _ _ => hllUnionUpdate_reports) h

/-- **No reported change, no change**: an update that reports none leaves an accumulator that stands
for the same element. -/
theorem MeetAggr.canon_of_unchanged {op : MeetAggr} (h : op.update left right = .ok (false, out)) :
    op.canon out = op.canon left := by
  by_cases hop : op = .minCost
  · subst hop
    rcases right with _ | r
    · cases h
      rfl
    rcases left with _ | l
    · cases h
    · obtain ⟨l', hl', rfl⟩ := updateWith_value h
      obtain ⟨-, -, -, -, -, rfl⟩ := minCostUpdate_cases hl'
      rfl
  · by_contra hne
    exact absurd ((changed_iff h fun heq => absurd heq hop).mpr hne) Bool.false_ne_true

/-! ## Updates of accumulators that stand for the same element -/

lemma updateWith_congr (hop : ∀ l m r changed l', c l = c m → op l r = .ok (changed, l') →
      ∃ m', op m r = .ok (changed, m') ∧ c l' = c m') {left' : MeetAccum}
    (hsame : left.canonWith c = left'.canonWith c)
    (h : updateWith op left right = .ok (changed, out)) :
    ∃ out', updateWith op left' right = .ok (changed, out') ∧
      out.canonWith c = out'.canonWith c := by
  rcases right with _ | r
  · cases h
    exact ⟨left', rfl, hsame⟩
  rcases left with _ | l
  · rcases left' with _ | m
    · exact ⟨out, h, rfl⟩
    · cases hsame
  rcases left' with _ | m
  · cases hsame
  obtain ⟨l', hres, rfl⟩ := updateWith_value h
  obtain ⟨m', hm', hc⟩ := hop l m r _ l' (MeetAccum.value.inj hsame) hres
  rw [updateWith, hm']
  exact ⟨.value m', rfl, congrArg MeetAccum.value hc⟩

section

variable (l m r : DataValue) (changed : Bool) (l' : DataValue) (hsame : l.asSet = m.asSet)
include hsame

lemma unionUpdate_congr (h : unionUpdate l r = .ok (changed, l')) :
    ∃ m', unionUpdate m r = .ok (changed, m') ∧ l'.asSet = m'.asSet := by
  obtain ⟨s, items, hl, hr, rfl, rfl⟩ := unionUpdate_eq_ok h
  obtain ⟨t, ht, hmem⟩ := collectSet_congr hsame hl
  refine ⟨.set (insertAll t items).2, ?_, ?_⟩
  · -- Whether something is inserted depends on the elements alone.
    have hflag : (insertAll t items).1 = (insertAll s items).1 := by
      rw [← Bool.not_inj_iff, Bool.eq_iff_iff, Bool.not_eq_true', Bool.not_eq_true',
        insertAll_unchanged, insertAll_unchanged]
      simp [hmem]
    rw [unionUpdate, ht, hr, ← hflag]
  · rw [asSet_set, asSet_set]
    refine set_congr fun v => ?_
    rw [mem_insertAll, mem_insertAll, hmem]

lemma intersectionUpdate_congr (h : intersectionUpdate l r = .ok (changed, l')) :
    ∃ m', intersectionUpdate m r = .ok (changed, m') ∧ l'.asSet = m'.asSet := by
  obtain ⟨s, t, hl, hr, h⟩ := intersectionUpdate_eq_ok h
  obtain ⟨u, hu, hmem⟩ := collectSet_congr hsame hl
  have hequiv : s.Equiv u := TreeSet.Equiv.of_forall_mem_iff hmem
  rw [hequiv.size_eq, hequiv.toList_eq] at h
  simp only [intersectionUpdate, hu, hr]
  split_ifs at h ⊢ with hsize
  · obtain ⟨rfl, rfl⟩ := h
    exact ⟨_, rfl, by rw [set_congr hmem]⟩
  · obtain ⟨rfl, rfl⟩ := h
    exact ⟨_, rfl, rfl⟩

end

/-- **Updates respect what accumulators stand for**: they report the same and leave accumulators
that stand for the same element. -/
theorem MeetAggr.update_congr {op : MeetAggr} {left' : MeetAccum}
    (hsame : op.canon left = op.canon left') (h : op.update left right = .ok (changed, out)) :
    ∃ out', op.update left' right = .ok (changed, out') ∧ op.canon out = op.canon out' := by
  have hid : op.canon = id → ∃ out', op.update left' right = .ok (changed, out') ∧
      op.canon out = op.canon out' := by
    intro hop
    rw [hop] at hsame
    exact ⟨out, (show left = left' from hsame) ▸ h, rfl⟩
  cases op with
  | union => exact updateWith_congr unionUpdate_congr hsame h
  | intersection => exact updateWith_congr intersectionUpdate_congr hsame h
  | _ => exact hid rfl

/-! ## Groups -/

/-- What the accumulators of a group stand for. -/
def canonAll : List MeetAggr → List MeetAccum → List MeetAccum
  | op :: meets, v :: vals => op.canon v :: canonAll meets vals
  | _, vals => vals

variable {vals incoming out : List MeetAccum} {meets : List MeetAggr}

lemma updateAll_cons {op : MeetAggr} {l r : MeetAccum}
        (h : updateAll (op :: meets) (l :: vals) (r :: incoming) = .ok (changed, out)) :
    ∃ c l' cs vals', op.update l r = .ok (c, l') ∧ updateAll meets vals incoming = .ok (cs, vals') ∧
      changed = (c || cs) ∧ out = l' :: vals' := by
  obtain ⟨⟨c, l'⟩, hl, h⟩ := bind_ok h
  obtain ⟨⟨cs, vals'⟩, hvals, h⟩ := bind_ok h
  cases h
  exact ⟨c, l', cs, vals', hl, hvals, rfl, rfl⟩

lemma length_updateAll (h : updateAll meets vals incoming = .ok (changed, out)) :
    out.length = vals.length := by
  induction meets, vals, incoming using updateAll.induct generalizing changed out with
  | case1 op meets l vals r incoming ih =>
    obtain ⟨c, l', cs, vals', -, hvals, -, rfl⟩ := updateAll_cons h
    rw [length_cons, length_cons, ih hvals]
  | case2 meets vals incoming hnil =>
    rw [updateAll.eq_2 _ _ _ hnil] at h
    cases h
    rfl

/-- **No reported change, no change**, for a group. -/
theorem canonAll_of_unchanged (h : updateAll meets vals incoming = .ok (false, out)) :
    canonAll meets out = canonAll meets vals := by
  induction meets, vals, incoming using updateAll.induct generalizing out with
  | case1 op meets l vals r incoming ih =>
    obtain ⟨c, l', cs, vals', hl, hvals, hflag, rfl⟩ := updateAll_cons h
    obtain ⟨rfl, rfl⟩ := Bool.or_eq_false_iff.mp hflag.symm
    rw [canonAll, canonAll, MeetAggr.canon_of_unchanged hl, ih hvals]
  | case2 meets vals incoming hnil =>
    rw [updateAll.eq_2 _ _ _ hnil] at h
    cases h
    rfl

/-- **Folds respect what accumulators stand for.** -/
theorem updateAll_congr {vals vals' incoming out : List MeetAccum}
    (hsame : canonAll meets vals = canonAll meets vals')
    (h : updateAll meets vals incoming = .ok (changed, out)) :
    ∃ out', updateAll meets vals' incoming = .ok (changed, out') ∧
      canonAll meets out = canonAll meets out' := by
  induction meets, vals, incoming using updateAll.induct generalizing vals' changed out with
  | case1 op meets l vals r incoming ih =>
    rcases vals' with _ | ⟨m, vals'⟩
    · cases hsame
    obtain ⟨hhead, htail⟩ := cons.inj (by simpa only [canonAll] using hsame)
    obtain ⟨c, l', cs, out₁, hl, hvals, rfl, rfl⟩ := updateAll_cons h
    obtain ⟨m', hm', hcanon⟩ := MeetAggr.update_congr hhead hl
    obtain ⟨out₂, hout₂, hcanon'⟩ := ih htail hvals
    refine ⟨m' :: out₂, ?_, ?_⟩
    · rw [updateAll, hm', hout₂]
      rfl
    · rw [canonAll, canonAll, hcanon, hcanon']
  | case2 meets vals incoming hnil =>
    rw [updateAll.eq_2 _ _ _ hnil] at h
    cases h
    refine ⟨vals', ?_, hsame⟩
    -- One of the three lists is at its end, and the accumulators' lists end together.
    rcases meets with _ | ⟨op, meets⟩
    · rw [updateAll]
      simp
    rcases incoming with _ | ⟨r, incoming⟩
    · rw [updateAll]
      simp
    rcases vals with _ | ⟨l, vals⟩
    · rcases vals' with _ | ⟨m, vals'⟩
      · rw [updateAll]
        simp
      · rw [canonAll, canonAll] at hsame
        · cases hsame
        · simp
    · exact absurd rfl (hnil op meets l vals r incoming rfl rfl)

end Kyzo

import Kyzo.Exec.AggrOrder

/-!
# The admission count of a meet rule

While an epoch derives into its out-store, the engine counts the groups that become admissible
against the running total, and spends its budget by that count.  For the lattice folds the count is
what the barrier then admits: as an out-store folds more tuples into a group, what the group would
move stays moved.
-/

namespace Kyzo

open List Std DataValue MeetAggrStore

/-! ## Folding more into the incoming side -/

/-- What moves an accumulator still moves it when more has been folded into it. -/
def Keeps {α : Type} (op : α → α → Except AggrError (Bool × α)) : Prop :=
  ∀ {t a b a' x x' : α} {c c' : Bool}, op t a = .ok (true, x) → op a b = .ok (c, a') →
    op t a' = .ok (c', x') → c' = true

variable {op : ValueUpdate}

lemma keeps_updateWith (h : Keeps op) : Keeps (updateWith op) := by
  intro t a b a' x x' c c' hta hab hta'
  rcases a with _ | a
  · cases hta
  rcases b with _ | b
  · cases hab
    cases hta.symm.trans hta'
    rfl
  obtain ⟨a', hop, rfl⟩ := updateWith_value hab
  rcases t with _ | t
  · cases hta'
    rfl
  · obtain ⟨_, hta, -⟩ := updateWith_value hta
    obtain ⟨_, hta', -⟩ := updateWith_value hta'
    exact h hta hop hta'

lemma ComputesBool.keeps {f : Bool → Bool → Bool} (h : ComputesBool f op)
    (hf : ∀ t a b, (t != f t a) = true → (t != f t (f a b)) = true) : Keeps op := by
  intro t a b a' x x' c c' hta hab hta'
  obtain ⟨t, a, rfl, rfl, hc, -⟩ := h hta
  obtain ⟨_, b, ha, rfl, -, rfl⟩ := h hab
  obtain ⟨_, _, ht, ha', rfl, -⟩ := h hta'
  rw [← bool_injective ht, ← bool_injective ha', ← bool_injective ha]
  exact hf t a b hc.symm

lemma keeps_union : Keeps unionUpdate := by
  intro t a b a' x x' c c' hta hab hta'
  obtain ⟨s, items, hs, hitems, hc, -⟩ := unionUpdate_eq_ok hta
  obtain ⟨u, _, hu, -, -, rfl⟩ := unionUpdate_eq_ok hab
  obtain ⟨_, _, hs', hout, rfl, -⟩ := unionUpdate_eq_ok hta'
  cases hs.symm.trans hs'
  rw [elements_set] at hout
  cases hout
  by_contra hsame
  rw [Bool.not_eq_true, insertAll_unchanged] at hsame
  refine absurd (insertAll_unchanged.mpr fun v hv => hsame v ?_) (Bool.not_eq_false _ ▸ hc.symm)
  rw [TreeSet.mem_toList, mem_insertAll, mem_collectSet hu]
  exact .inl ⟨items, hitems, hv⟩

lemma keeps_intersection : Keeps intersectionUpdate := by
  intro t a b a' x x' c c' hta hab hta'
  obtain ⟨s, u, hs, hu, -⟩ := intersectionUpdate_eq_ok hta
  obtain ⟨-, w, -, hw, -⟩ := intersectionUpdate_eq_ok hab
  obtain ⟨_, _, q, hab', hq, hmem, -⟩ := intersectionUpdate_spec hu hw
  cases hab.symm.trans hab'
  obtain ⟨_, _, -, heq, -, -, hsub⟩ := intersectionUpdate_spec hs hu
  obtain ⟨_, _, -, heq', -, -, hsub'⟩ := intersectionUpdate_spec hs hq
  cases hta.symm.trans heq
  cases hta'.symm.trans heq'
  by_contra hsame
  have hin := hsub'.mp (Bool.eq_false_of_not_eq_true hsame)
  exact Bool.noConfusion (hsub.mpr fun v hv => ((hmem v).mp (hin v hv)).1)

section Extremum

variable {name : String} {wins : Num → Num → Bool} {t a b a' : MeetAccum} {c : Bool}

/-- An accumulator that is a candidate stays or gives way to a number that wins. -/
theorem extremumUpdate_candidate (h : extremumUpdate name wins a b = .ok (c, a'))
    (hempty : a ≠ .empty) (hnull : a ≠ .value .null) :
    a' = a ∨ ∃ n k, a = .value (.num n) ∧ a' = .value (.num k) ∧ wins k n = true := by
  revert h
  fun_cases extremumUpdate name wins a b <;> intro h <;> cases h
  case case3.refl => exact absurd rfl hempty
  case case4.refl => exact absurd rfl hnull
  case case5.refl l hl r hr hwin => exact .inr ⟨l, r, rfl, rfl, hwin⟩
  all_goals exact .inl rfl

lemma keeps_extremum (hwins : IsStrictTotal wins) : Keeps (extremumUpdate name wins) := by
  intro t a b a' x x' c c' hta hab hta'
  have hcand : a ≠ .empty ∧ a ≠ .value .null := by
    constructor <;> rintro rfl <;> cases hta
  rcases extremumUpdate_candidate hab hcand.1 hcand.2 with rfl | ⟨n, k, rfl, rfl, hwin⟩
  · cases hta.symm.trans hta'
    rfl
  rcases t with _ | ⟨t, ht⟩
  · cases hta'
    rfl
  cases t
  case num l =>
    have hbeats : wins n l = true := by
      by_contra hlose
      exact absurd (hta.symm.trans (if_neg hlose)) (by simp)
    cases hta'.symm.trans (if_pos (hwins.trans hwin hbeats))
    rfl
  case null =>
    cases hta'
    rfl
  all_goals cases hta'

end Extremum

lemma MeetAggr.keeps {op : MeetAggr} (h : op.isLattice = true) : Keeps op.update := by
  cases op with
  | and => exact keeps_updateWith (computesBool_and.keeps (by decide))
  | or => exact keeps_updateWith (computesBool_or.keeps (by decide))
  | union => exact keeps_updateWith keeps_union
  | intersection => exact keeps_updateWith keeps_intersection
  | min => exact keeps_extremum isStrictTotal_lt
  | max => exact keeps_extremum isStrictTotal_gt
  | _ => cases h

lemma keeps_updateAll {meets : List MeetAggr} (h : ∀ op ∈ meets, op.isLattice = true) :
    Keeps (updateAll meets) := by
  induction meets with
  | nil => exact fun hta => nomatch hta
  | cons op meets ih =>
    obtain ⟨hop, hmeets⟩ := forall_mem_cons.mp h
    intro t a b a' x x' c c' hta hab hta'
    rcases t with _ | ⟨u, t⟩
    · cases hta
    rcases a with _ | ⟨v, a⟩
    · cases hta
    rcases b with _ | ⟨w, b⟩
    · cases hab
      cases hta.symm.trans hta'
      rfl
    obtain ⟨c₁, _, c₂, _, hu, ht, hflag, -⟩ := updateAll_cons hta
    obtain ⟨_, v', _, a', hv, ha, -, rfl⟩ := updateAll_cons hab
    obtain ⟨d₁, _, d₂, _, hu', ht', rfl, -⟩ := updateAll_cons hta'
    rcases Bool.or_eq_true_iff.mp hflag.symm with rfl | rfl
    · rw [MeetAggr.keeps hop hu hv hu', Bool.true_or]
    · rw [ih hmeets ht ha ht', Bool.or_true]

/-! ## Counting -/

section

variable {spec : MeetSpec} {levels : LevelStack MeetLevel}

/-- A group would be admitted if it would be sealed. -/
theorem wouldAdmit_iff {k : OwnBareKey} {vals : List MeetAccum} :
    spec.wouldAdmit levels k vals = .ok true ↔
      ∃ out, sealedVals spec.meets vals (findGroup levels.iter k) = some out := by
  rw [MeetSpec.wouldAdmit]
  rcases findGroup levels.iter k with _ | target
  · simp [sealedVals]
  · rcases hupdate : updateAll spec.meets target vals with err | ⟨_ | _, probe⟩ <;>
      simp [sealedVals, hupdate, Except.map]

/-- One epoch's derivations, put one by one, and how many of the puts answer `true`. -/
def MeetAggrStore.putAllFaithful (spec : MeetSpec) (levels : LevelStack MeetLevel) :
    MeetAggrStore → List Tuple → Except AggrError (ℕ × MeetAggrStore)
  | s, [] => .ok (0, s)
  | s, t :: rows => do
    let (newly, s) ← s.meetPutAdmissionFaithful t spec levels
    let (n, s) ← putAllFaithful spec levels s rows
    return (newly.toNat + n, s)

/-- The count so far is that of the groups the barrier would admit. -/
structure Counted (spec : MeetSpec) (levels : LevelStack MeetLevel) (s : MeetAggrStore) (n : ℕ) :
    Prop where
  meets_eq : s.meets = spec.meets
  decided : ∀ k vals, s.byGroup[k]? = some vals → ∃ b, spec.wouldAdmit levels k vals = .ok b
  count : ∃ ks : List OwnBareKey, ks.Nodup ∧ ks.length = n ∧
    ∀ k, k ∈ ks ↔ ∃ vals, s.byGroup[k]? = some vals ∧ spec.wouldAdmit levels k vals = .ok true

/-- A group that the barrier would admit stays one. -/
theorem wouldAdmit_keeps (hlattice : ∀ op ∈ spec.meets, op.isLattice = true) {k : OwnBareKey}
    {old incoming vals : List MeetAccum} {changed now : Bool}
    (hwas : spec.wouldAdmit levels k old = .ok true)
    (hfold : updateAll spec.meets old incoming = .ok (changed, vals))
    (hnow : spec.wouldAdmit levels k vals = .ok now) : now = true := by
  rw [MeetSpec.wouldAdmit] at hwas hnow
  rcases hfind : findGroup levels.iter k with _ | target
  · rw [hfind] at hnow
    cases hnow
    rfl
  · rw [hfind] at hwas hnow
    obtain ⟨⟨_, _⟩, hta, rfl⟩ := map_eq_ok.mp hwas
    obtain ⟨⟨_, _⟩, hta', rfl⟩ := map_eq_ok.mp hnow
    exact keeps_updateAll hlattice hta hfold hta'

variable {s s' : MeetAggrStore} {n m : ℕ} {t : Tuple} {rows : List Tuple} {newly : Bool}

lemma meetPutAdmissionFaithful_spec
    (h : s.meetPutAdmissionFaithful t spec levels = .ok (newly, s')) : ∃ was now vals,
      s.byGroup[s.layout.borrowKey t]?.elim (.ok false)
        (spec.wouldAdmit levels (s.layout.borrowKey t)) = .ok was ∧
      putStep s.meets s.byGroup[s.layout.borrowKey t]? (s.incoming t) = .ok (some vals) ∧
      s' = { s with byGroup := s.byGroup.insert (s.layout.borrowKey t) vals } ∧
      spec.wouldAdmit levels (s.layout.borrowKey t) vals = .ok now ∧ newly = (now && !was) := by
  rw [meetPutAdmissionFaithful] at h
  cases hk : s.byGroup[s.layout.borrowKey t]? <;> simp only [hk] at h
  all_goals
    obtain ⟨was, hwas, h⟩ := bind_ok h
    obtain ⟨⟨_, _⟩, hfold, h⟩ := bind_ok h
    obtain ⟨now, hnow, h⟩ := bind_ok h
    obtain ⟨vals, hvals, rfl⟩ := meetPut_spec hfold
    simp only [TreeMap.getElem?_insert_self, Option.getD_some] at hnow
    cases h
    exact ⟨was, now, vals, hwas, hk ▸ hvals, rfl, hnow, rfl⟩

variable (hlattice : ∀ op ∈ spec.meets, op.isLattice = true) (h : Counted spec levels s n)
include hlattice h

/-- **Step.**  A put that makes its group admissible is counted, and no group leaves the count. -/
theorem Counted.put (hput : s.meetPutAdmissionFaithful t spec levels = .ok (newly, s')) :
    Counted spec levels s' (n + newly.toNat) := by
  obtain ⟨was, now, vals, hwas, hvals, rfl, hnow, rfl⟩ := meetPutAdmissionFaithful_spec hput
  generalize s.layout.borrowKey t = key at hwas hvals hnow ⊢
  obtain ⟨ks, hnodup, rfl, hks⟩ := h.count
  have hget (k) := s.byGroup.getElem?_insert (k := key) (a := k) (v := vals)
  have hin : key ∈ ks ↔ was = true := by
    rw [hks]
    rcases hk : s.byGroup[key]? with _ | old
    · rw [hk] at hwas
      cases hwas
      simp
    · rw [hk, Option.elim_some] at hwas
      simp [hwas]
  have hkeep : was = true → now = true := by
    rintro rfl
    obtain ⟨old, hk, hadmit⟩ := (hks _).mp (hin.mpr rfl)
    rw [hk] at hvals
    obtain ⟨⟨_, _⟩, hfold, hout⟩ := map_eq_ok.mp hvals
    cases hout
    exact wouldAdmit_keeps hlattice hadmit (h.meets_eq ▸ hfold) hnow
  have hdecided := h.decided
  have hsame (k) := LawfulEqOrd.compare_eq_iff_eq (a := key) (b := k)
  refine ⟨h.meets_eq, by grind, if now && !was then key :: ks else ks, ?_, ?_, ?_⟩
  · grind
  · grind
  · grind

omit hlattice in
/-- **Barrier.**  What is counted is admitted. -/
theorem Counted.sealed : ∃ level,
    sealGroups spec levels.iter s.byGroup.toList [] 0 = .ok (level, n) := by
  obtain ⟨ks, hnodup, rfl, hks⟩ := h.count
  have hascend := keysAscend_sealedGroups spec.meets (findGroup levels.iter)
    (keysAscend_toList s.byGroup)
  have hperm := (perm_ext_iff_of_nodup hnodup (nodup_keys hascend)).mpr fun k => by
    simp only [hks, wouldAdmit_iff, ← exists_and_left]
    rw [exists_comm]
    simp [sealedGroups, TreeMap.mem_toList_iff_getElem?_eq_some]
  refine ⟨⟨_⟩, (sealGroups_spec fun _ => rfl).mpr ⟨rfl, ?_, fun e he target htarget => ?_⟩⟩
  · rw [hperm.length_eq, length_map, zero_add]
  · obtain ⟨b, hb⟩ := h.decided e.1 e.2 (TreeMap.mem_toList_iff_getElem?_eq_some.mp he)
    rw [MeetSpec.wouldAdmit, htarget] at hb
    exact (map_eq_ok.mp hb).imp fun _ => And.left

/-- **Run.** -/
theorem Counted.putAll (hrun : s.putAllFaithful spec levels rows = .ok (m, s')) :
    Counted spec levels s' (n + m) := by
  induction rows generalizing s n m with
  | nil =>
    cases hrun
    exact h
  | cons t rows ih =>
    obtain ⟨⟨newly, s₁⟩, hput, hrun⟩ := bind_ok hrun
    obtain ⟨⟨k, s₂⟩, hrest, hrun⟩ := bind_ok hrun
    cases hrun
    rw [← add_assoc]
    exact ih (h.put hlattice hput) hrest

end

/-- **The admission count is exact**: over any total, the puts of an epoch that answer `true` are as
many as the groups that the barrier then admits. -/
theorem mergeIn_admits_count {aggrs : List HeadAggrSlot} {fresh out : MeetAggrStore}
    {total : EpochStore} {levels : LevelStack MeetLevel} {rows : List Tuple} {n : ℕ}
    (hfresh : MeetAggrStore.new aggrs = .ok fresh)
    (hlattice : ∀ op ∈ fresh.meets, op.isLattice = true)
    (htotal : total.kind = .meet ⟨fresh.layout, fresh.meets⟩ levels)
    (hrun : fresh.putAllFaithful ⟨fresh.layout, fresh.meets⟩ levels rows = .ok (n, out)) :
    (total.mergeIn (.meetAggr out)).1 = .ok n := by
  obtain ⟨meets, -, rfl⟩ := map_eq_ok.mp hfresh
  have hstart : Counted ⟨.fromSignature aggrs, meets⟩ levels ⟨∅, meets, .fromSignature aggrs⟩ 0 :=
    ⟨rfl, by simp, [], nodup_nil, rfl, by simp⟩
  have hend := hstart.putAll hlattice hrun
  obtain ⟨level, hseal⟩ := hend.sealed
  simp [EpochStore.mergeIn, htotal, mergeMeet, hseal, Except.mapError]

/-- A head with one conjunction. -/
def andHead : List HeadAggrSlot := [.aggregated ⟨"and", .meet⟩ []]

/-- The first tuple repeats what the total holds, the second one moves it. -/
theorem mergeIn_admits_count_and : ∃ out, putAllFaithful ⟨.fromSignature andHead, [.and]⟩
      (.singleton ⟨[(.encode [], [.value (.bool true)])]⟩) ⟨∅, [.and], .fromSignature andHead⟩
      [[.bool true], [.bool false]] = .ok (1, out) ∧
    (EpochStore.mergeIn ⟨.meet ⟨.fromSignature andHead, [.and]⟩
      (.singleton ⟨[(.encode [], [.value (.bool true)])]⟩), 1⟩ (.meetAggr out)).1 = .ok 1 := by
  have hfresh : MeetAggrStore.new andHead = .ok ⟨∅, [.and], .fromSignature andHead⟩ := rfl
  exact Exists.imp (fun out hrun => ⟨hrun, mergeIn_admits_count hfresh (by decide) rfl hrun⟩)
    ⟨_, rfl⟩

end Kyzo

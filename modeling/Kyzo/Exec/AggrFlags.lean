import Kyzo.Exec.MeetRuns

/-!
# When the changed flag of a meet is exact

An update should report a change exactly when its accumulator moves.  Every operation does, with one
exception: `min_cost` compares costs as floats, so a pair whose cost is NaN does not stand before
itself, and folding it into itself reports a change that did not happen.
-/

namespace Kyzo

open List MeetAggr

/-! ## Folding an accumulator into itself -/

variable {f : UInt8 → UInt8 → UInt8} {name : String} {c changed : Bool} {x out : MeetAccum}
  {v v' : DataValue} {op : ValueUpdate}

lemma updateWith_self (hop : ∀ {v c v'}, op v v = .ok (c, v') → c = false)
    (h : updateWith op x x = .ok (changed, out)) : changed = false := by
  rcases x with _ | v
  · cases h
    rfl
  · obtain ⟨v', hres, -⟩ := updateWith_value h
    exact hop hres

lemma ComputesBool.self {f : Bool → Bool → Bool} (hop : ComputesBool f op)
    (hf : ∀ b, f b b = b) (h : op v v = .ok (c, v')) : c = false := by
  obtain ⟨a, b, rfl, hb, rfl, -⟩ := hop h
  rw [← bool_injective hb, hf, bne_self_eq_false]

lemma unionUpdate_self (h : unionUpdate v v = .ok (c, v')) : c = false := by
  obtain ⟨s, items, hs, hitems, rfl, -⟩ := unionUpdate_eq_ok h
  refine insertAll_unchanged.mpr fun w hw => ?_
  rw [DataValue.collectSet, hitems] at hs
  cases hs
  rwa [Std.TreeSet.mem_ofList, contains_iff_mem]

lemma intersectionUpdate_self (h : intersectionUpdate v v = .ok (c, v')) : c = false := by
  obtain ⟨s, t, hs, ht, h⟩ := intersectionUpdate_eq_ok h
  cases hs.symm.trans ht
  rw [if_pos (size_filter_eq_iff.mpr fun _ => id)] at h
  exact h.1

lemma shortestUpdate_self (h : shortestUpdate v v = .ok (c, v')) : c = false := by
  rw [shortestUpdate.eq_def] at h
  split at h
  · next l hl r hr heq =>
    rw [if_neg (lt_irrefl _)] at h
    cases h
    rfl
  · cases h

lemma foldBytes_self (hf : ∀ b, f b b = b) (bytes : Bytes) :
    (foldBytes f bytes bytes).1 = false := by
  induction bytes with
  | nil => rfl
  | cons b bytes ih => simp [foldBytes, ih, hf]

lemma bitUpdate_self (hf : ∀ b, f b b = b) (h : bitUpdate name f v v = .ok (c, v')) :
    c = false := by
  rw [bitUpdate.eq_def] at h
  split at h
  · next l hl r hr heq =>
    split_ifs at h with hnil hlen
    · cases h
      rw [hnil]
      rfl
    · cases h
      exact foldBytes_self hf r
  · cases h

lemma hllUnionUpdate_self (h : hllUnionUpdate v v = .ok (c, v')) : c = false := by
  obtain ⟨s, hs, h⟩ := bind_ok h
  obtain ⟨t, ht, h⟩ := bind_ok h
  cases hs.symm.trans ht
  cases h
  exact foldBytes_self (fun b => by simp) s.val

lemma extremumUpdate_self {wins : Num → Num → Bool} (hwins : ∀ n, wins n n = false)
    (h : extremumUpdate name wins x x = .ok (changed, out)) : changed = false := by
  rcases x with _ | ⟨v, hv⟩
  · cases h
    rfl
  cases v <;> simp only [extremumUpdate, hwins] at h <;> cases h <;> rfl

/-- **What an accumulator reports when it meets itself**: a change in `min_cost` if its cost is NaN,
and none otherwise. -/
theorem MeetAggr.update_self {op : MeetAggr} (h : op.update x x = .ok (changed, out)) :
    changed = (decide (op = .minCost) && x.hasNanCost) := by
  have hfalse : op ≠ .minCost → changed = false →
      changed = (decide (op = .minCost) && x.hasNanCost) := by
    intro hop hchanged
    rw [hchanged, decide_eq_false hop, Bool.false_and]
  cases op with
  | and => exact hfalse (by decide) (updateWith_self (computesBool_and.self Bool.and_self) h)
  | or => exact hfalse (by decide) (updateWith_self (computesBool_or.self Bool.or_self) h)
  | union => exact hfalse (by decide) (updateWith_self unionUpdate_self h)
  | intersection => exact hfalse (by decide) (updateWith_self intersectionUpdate_self h)
  | min | max =>
    exact hfalse (by decide) (extremumUpdate_self (fun n => by rw [Num.cmp_self]; rfl) h)
  | minCost =>
    rcases x with _ | v
    · cases h
      rfl
    · obtain ⟨v', hres, -⟩ := updateWith_value h
      obtain ⟨prevCost, curCost, hprev, hcur, rfl, -⟩ := minCostUpdate_cases hres
      cases hprev.symm.trans hcur
      rw [F64.le_self, Bool.not_not, MeetAccum.hasNanCost, hprev]
      rfl
  | shortest => exact hfalse (by decide) (updateWith_self shortestUpdate_self h)
  | choice =>
    rw [update] at h
    refine hfalse (by decide) (updateWith_self (fun hres => ?_) h)
    cases hres
    rfl
  | bitAnd => exact hfalse (by decide) (updateWith_self (bitUpdate_self fun _ => UInt8.and_self) h)
  | bitOr => exact hfalse (by decide) (updateWith_self (bitUpdate_self fun _ => UInt8.or_self) h)
  | hllUnion => exact hfalse (by decide) (updateWith_self hllUnionUpdate_self h)

lemma minCost_update_self (h : minCost.update x x = .ok (changed, out)) : out = x := by
  rcases x with _ | v
  · cases h
    rfl
  · obtain ⟨v', hres, rfl⟩ := updateWith_value h
    obtain ⟨-, -, -, -, -, rfl⟩ := minCostUpdate_cases hres
    rw [ite_self]

/-! ## Epochs that derive what is known -/

/-- A group has a pair with a NaN cost at a `min_cost` position. -/
def nanCosts : List MeetAggr → List MeetAccum → Bool
  | op :: meets, v :: vals => (decide (op = .minCost) && v.hasNanCost) || nanCosts meets vals
  | _, _ => false

lemma updateAll_self {meets : List MeetAggr} {vals out : List MeetAccum}
    (h : updateAll meets vals vals = .ok (changed, out)) : changed = nanCosts meets vals := by
  induction meets generalizing vals changed out with
  | nil =>
    cases h
    rfl
  | cons op meets ih =>
    rcases vals with _ | ⟨v, vals⟩
    · cases h
      rfl
    · obtain ⟨c, v', cs, vals', hv, hvals, rfl, -⟩ := updateAll_cons h
      rw [nanCosts, update_self hv, ih hvals]

variable {spec : MeetSpec} {n : ℕ}

lemma sealedGroups_known {total : OwnBareKey → Option (List MeetAccum)}
    {entries : List (OwnBareKey × List MeetAccum)} (hknown : ∀ e ∈ entries, total e.1 = some e.2)
    (hok : ∀ e ∈ entries, ∀ target, total e.1 = some target →
      ∃ r, updateAll spec.meets target e.2 = .ok r) :
    sealedGroups spec.meets total entries = [] ↔
      ∀ e ∈ entries, nanCosts spec.meets e.2 = false := by
  rw [sealedGroups, filterMap_eq_nil_iff]
  refine forall₂_congr fun e he => ?_
  obtain ⟨⟨changed, probe⟩, hupdate⟩ := hok e he _ (hknown e he)
  rw [hknown e he, ← updateAll_self hupdate]
  cases changed <;> simp [sealedVals, hupdate]

lemma EpochStore.hasDelta_of_known {store store' : EpochStore} {levels : LevelStack MeetLevel}
    {new : MeetAggrStore} (hkind : store.kind = .meet spec levels)
    (hknown : ∀ e ∈ new.byGroup.toList, findGroup levels.iter e.1 = some e.2)
    (h : store.mergeIn (.meetAggr new) = (.ok n, store')) :
    store'.hasDelta = false ↔ ∀ e ∈ new.byGroup.toList, nanCosts spec.meets e.2 = false := by
  obtain ⟨levels', hmerge, hkind'⟩ := mergeIn_meet hkind h
  rw [mergeMeet] at hmerge
  rcases hseal : sealGroups spec levels.iter new.byGroup.toList [] 0 with e | ⟨level, m⟩
  · rw [hseal] at hmerge
    cases hmerge
  · rw [hseal] at hmerge
    cases hmerge
    obtain ⟨hgroups, -, hok⟩ := (sealGroups_spec fun _ => rfl).mp hseal
    rw [hasDelta, hkind', ← sealedGroups_known hknown hok]
    simp [hgroups]

/-! ## Exactness -/

/-- **The changed flag of a meet is exact** but for a pair with a NaN cost that meets itself in
`min_cost`: an update reports a change exactly when the accumulator moves, an accumulator that meets
itself reports none, and an epoch that derives only the groups that are held leaves no delta. -/
theorem changed_flag_exact_iff (op : MeetAggr) (left : MeetAccum) :
    (∀ (right out : MeetAccum) (changed : Bool), op.update left right = .ok (changed, out) →
      ((changed = true ↔ op.canon out ≠ op.canon left) ↔
        ¬(op = .minCost ∧ left = right ∧ left.hasNanCost = true))) ∧
    (∀ (out : MeetAccum) (changed : Bool), op.update left left = .ok (changed, out) →
      (changed = false ↔ ¬(op = .minCost ∧ left.hasNanCost = true))) ∧
    ∀ (store store' : EpochStore) (spec : MeetSpec) (levels : LevelStack MeetLevel)
      (new : MeetAggrStore) (n : ℕ), store.kind = .meet spec levels →
      (∀ e ∈ new.byGroup.toList, findGroup levels.iter e.1 = some e.2) →
      store.mergeIn (.meetAggr new) = (.ok n, store') →
      (store'.hasDelta = false ↔ ∀ e ∈ new.byGroup.toList, nanCosts spec.meets e.2 = false) := by
  refine ⟨fun right out changed h => ?_, fun out changed h => ?_,
    fun store store' spec levels new n hkind hknown h => ?_⟩
  · constructor
    · rintro hexact ⟨rfl, rfl, hnan⟩
      -- The pair is replaced by itself.
      have hchanged : changed = true := by
        rw [update_self h, hnan]
        rfl
      exact hexact.mp hchanged (congrArg minCost.canon (minCost_update_self h))
    · intro hnan
      exact changed_iff h fun hop hsame =>
        Bool.eq_false_of_not_eq_true fun hcost => hnan ⟨hop, hsame, hcost⟩
  · rw [update_self h]
    simp
  · exact EpochStore.hasDelta_of_known hkind hknown h

/-- A pair with payload `null`. -/
def costPair (cost : F64) : MeetAccum := .value (.list [.null, .num (Num.float cost)])

/-- A cheaper pair, and a pair that comes again. -/
theorem changed_flag_exact_iff_costs : (true = true ↔ minCost.canon (costPair ⟨0⟩) ≠
      minCost.canon (costPair ⟨0x3FF0000000000000⟩)) ∧
    (false = false ↔ ¬(minCost = .minCost ∧ (costPair ⟨0⟩).hasNanCost = true)) := by
  obtain ⟨hexact, -, -⟩ := changed_flag_exact_iff .minCost (costPair ⟨0x3FF0000000000000⟩)
  obtain ⟨-, hself, -⟩ := changed_flag_exact_iff .minCost (costPair ⟨0⟩)
  refine ⟨?_, hself (costPair ⟨0⟩) false rfl⟩
  refine (hexact (costPair ⟨0⟩) (costPair ⟨0⟩) true rfl).mpr ?_
  rintro ⟨-, -, hcost⟩
  exact absurd hcost (by decide)

/-- A pair whose cost is NaN is adopted by a fresh fold, and reports a change each time it comes
again. -/
theorem changed_flag_nan : minCost.update minCost.initVal (costPair ⟨canonNanBits⟩) =
      .ok (true, costPair ⟨canonNanBits⟩) ∧
    minCost.update (costPair ⟨canonNanBits⟩) (costPair ⟨canonNanBits⟩) =
      .ok (true, costPair ⟨canonNanBits⟩) :=
  ⟨rfl, rfl⟩

end Kyzo

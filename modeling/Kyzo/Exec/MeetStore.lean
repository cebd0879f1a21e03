import Kyzo.Exec.MeetLayout

/-!
# Meet epoch stores

What the levels of a meet store hold after a sequence of barrier merges: for each group, the
accumulators that the merges kept.  They are kept as they were unless a fold reports a change, and
so they stand for the same elements as the left-to-right fold of the epochs' accumulators.
-/

namespace Kyzo

open Option List LevelStack Std.TreeMap MeetLevel

/-! ## Levels -/

namespace MeetLevel

variable {l : MeetLevel} (h : KeysAscend l.groups) (key : OwnBareKey)
include h

/-- **A search is a lookup.** -/
theorem find_spec : (l.find key).map Prod.snd = lookupKey l.groups key := by
  have hmono : SearchMonotone (fun e : OwnBareKey × List MeetAccum => compare e.1 key)
      l.groups := by
    refine h.imp ?_
    intro x y hxy hy
    exact Std.TransCmp.lt_of_lt_of_isLE hxy (Ordering.isLE_iff_ne_gt.mpr hy)
  rw [find]
  split
  · next i hsearch =>
    obtain ⟨hi, hprobe⟩ := bisect_sound hsearch
    rw [probeAt, getElem?_eq_getElem hi] at hprobe
    have hkey : (l.groups[i]).1 = key := Std.LawfulEqOrd.eq_of_compare hprobe
    have hsome : lookupKey l.groups key = some (l.groups[i]).2 := by
      rw [← hkey]
      exact (lookupKey_eq_some h).mpr (getElem_mem hi)
    rw [hsome, getElem?_eq_getElem hi]
    rfl
  · next r hsearch =>
    -- The search fails only where no group has the key.
    rw [binarySearchBy_eq hmono] at hsearch
    split_ifs at hsearch with hex
    refine (lookupKey_eq_none.mpr fun e he heq => hex ⟨e, he, ?_⟩).symm
    rw [heq]
    exact Std.ReflCmp.compare_self

lemma isSome_find : (l.find key).isSome = (lookupKey l.groups key).isSome := by
  rw [← find_spec h, isSome_map]

end MeetLevel

variable {levels : List MeetLevel}

lemma findGroup_eq (h : ∀ l ∈ levels, KeysAscend l.groups) (key : OwnBareKey) :
    findGroup levels key = newest (levels.map groups) key :=
  findSome?_eq_newest fun l hl => find_spec (h l hl) key

/-! ## Sealing an epoch -/

variable (meets : List MeetAggr)

/-- What an epoch seals for a group over the accumulators held so far: a new group as it comes, a
changed one folded, any other not at all. -/
def sealedVals (incoming : List MeetAccum) : Option (List MeetAccum) → Option (List MeetAccum)
  | none => some incoming
  | some target =>
    match updateAll meets target incoming with
    | .ok (true, probe) => some probe
    | _ => none

variable {total : OwnBareKey → Option (List MeetAccum)}

section

variable (total)

/-- The groups an epoch seals over the accumulators held so far. -/
def sealedGroups
    (entries : List (OwnBareKey × List MeetAccum)) : List (OwnBareKey × List MeetAccum) :=
  entries.filterMap fun e => (sealedVals meets e.2 (total e.1)).map fun vals => (e.1, vals)

variable {entries : List (OwnBareKey × List MeetAccum)} (h : KeysAscend entries)
include h

lemma keysAscend_sealedGroups : KeysAscend (sealedGroups meets total entries) :=
  h.filterMap fun k incoming => sealedVals meets incoming (total k)

lemma lookupKey_sealedGroups (k : OwnBareKey) : lookupKey (sealedGroups meets total entries) k =
      (lookupKey entries k).bind fun incoming => sealedVals meets incoming (total k) :=
  lookupKey_filterMap h (fun k incoming => sealedVals meets incoming (total k)) k

end

variable {spec : MeetSpec} {n : ℕ}

/-- **The sealing loop**: if no fold is refused it appends the sealed groups and counts them. -/
theorem sealGroups_spec (hfind : ∀ k, findGroup levels k = total k)
    {entries groups : List (OwnBareKey × List MeetAccum)} {admitted : ℕ} {level : MeetLevel} :
    sealGroups spec levels entries groups admitted = .ok (level, n) ↔
      level.groups = groups ++ sealedGroups spec.meets total entries ∧
      n = admitted + (sealedGroups spec.meets total entries).length ∧
      ∀ e ∈ entries, ∀ target, total e.1 = some target →
        ∃ r, updateAll spec.meets target e.2 = .ok r := by
  induction entries generalizing groups admitted with
  | nil =>
    cases level
    simp [sealGroups, sealedGroups, eq_comm]
  | cons e entries ih =>
    obtain ⟨group, incoming⟩ := e
    have hsealed : sealedGroups spec.meets total ((group, incoming) :: entries) =
        ((sealedVals spec.meets incoming (total group)).map (group, ·)).toList ++
          sealedGroups spec.meets total entries := by
      cases h : sealedVals spec.meets incoming (total group) <;> simp [sealedGroups, h]
    rw [sealGroups, hfind, hsealed, forall_mem_cons]
    rcases htotal : total group with _ | target
    · simp [ih, sealedVals, add_assoc, add_comm 1]
    · rcases hupdate : updateAll spec.meets target incoming with err | ⟨_ | _, probe⟩
      · simp [hupdate, Bind.bind, Except.bind]
      · simp [hupdate, ok_bind, ih, sealedVals]
      · simp [hupdate, ok_bind, ih, sealedVals, add_assoc, add_comm 1]

/-! ## Keeping and folding -/

/-- What a merge keeps for a group. -/
def keepStep (stored : Option (List MeetAccum)) : Option (List MeetAccum) → Option (List MeetAccum)
  | none => stored
  | some incoming => (sealedVals meets incoming stored).or stored

variable {outs : List MeetAggrStore}

section

variable (outs)

/-- What a sequence of merges keeps for a group. -/
def storedOf (k : OwnBareKey) : Option (List MeetAccum) :=
  outs.foldl (fun stored out => keepStep meets stored out.byGroup[k]?) none

lemma storedOf_concat (new : MeetAggrStore) (k : OwnBareKey) :
    storedOf meets (outs ++ [new]) k = keepStep meets (storedOf meets outs k) new.byGroup[k]? := by
  rw [storedOf, foldl_append]
  rfl

end

/-- The accumulators of a group in the epochs that derived it. -/
def accumsOf (outs : List MeetAggrStore) (k : OwnBareKey) : List (List MeetAccum) :=
  outs.filterMap fun out => out.byGroup[k]?

/-- One step of the left-to-right fold: the first accumulators count as a change. -/
def foldStep : Option (Bool × List MeetAccum) → List MeetAccum →
      Except AggrError (Option (Bool × List MeetAccum))
  | none, accums => .ok (some (true, accums))
  | some (_, vals), accums => (updateAll meets vals accums).map some

/-- The left-to-right fold of the accumulators of a group, with what its last step reported. -/
def foldAccums (accums : List (List MeetAccum)) :
    Except AggrError (Option (Bool × List MeetAccum)) :=
  accums.foldlM (foldStep meets) none

lemma accumsOf_concat (outs : List MeetAggrStore) (new : MeetAggrStore) (k : OwnBareKey) :
    accumsOf (outs ++ [new]) k = accumsOf outs k ++ new.byGroup[k]?.toList := by
  cases h : new.byGroup[k]? <;> simp [accumsOf, h]

lemma foldAccums_concat (accums : List (List MeetAccum)) (incoming : List MeetAccum) :
    foldAccums meets (accums ++ [incoming]) =
      foldAccums meets accums >>= fun acc => foldStep meets acc incoming := by
  rw [foldAccums, foldlM_append]
  refine bind_congr fun acc => ?_
  exact bind_pure _

/-- What was kept for a group stands for what its fold gives. -/
def FoldAgrees (stored : Option (List MeetAccum))
    (folded : Except AggrError (Option (Bool × List MeetAccum))) : Prop :=
  (stored = none ∧ folded = .ok none) ∨
    ∃ vals flag vals', stored = some vals ∧ folded = .ok (some (flag, vals')) ∧
      canonAll meets vals = canonAll meets vals'

variable {meets}

/-- **One epoch of a group**: keeping and folding go on agreeing, and the fold reports what was
sealed. -/
theorem FoldAgrees.step {stored : Option (List MeetAccum)}
    {folded : Except AggrError (Option (Bool × List MeetAccum))}
    (h : FoldAgrees meets stored folded) {incoming : List MeetAccum}
    (hok : ∀ target, stored = some target → ∃ r, updateAll meets target incoming = .ok r) :
    FoldAgrees meets (keepStep meets stored (some incoming))
        (folded >>= fun acc => foldStep meets acc incoming) ∧
      ∃ vals', (folded >>= fun acc => foldStep meets acc incoming) =
        .ok (some ((sealedVals meets incoming stored).isSome, vals')) := by
  obtain ⟨rfl, rfl⟩ | ⟨target, flag, vals', rfl, rfl, hsame⟩ := h
  · exact ⟨.inr ⟨incoming, true, incoming, rfl, rfl, rfl⟩, incoming, rfl⟩
  · obtain ⟨⟨changed, probe⟩, hupdate⟩ := hok target rfl
    obtain ⟨out', hout', hcanon⟩ := updateAll_congr hsame hupdate
    have hfold : (Except.ok (some (flag, vals')) >>= fun acc => foldStep meets acc incoming) =
        .ok (some (changed, out')) := by
      change (updateAll meets vals' incoming).map some = _
      rw [hout']
      rfl
    rw [hfold]
    cases changed
    · -- Nothing moved: the kept accumulators stay, and stand for the folded ones.
      have hkeep : keepStep meets (some target) (some incoming) = some target := by
        simp [keepStep, sealedVals, hupdate]
      refine ⟨.inr ⟨target, false, out', hkeep, rfl, ?_⟩, out', ?_⟩
      · rw [← canonAll_of_unchanged hupdate, hcanon]
      · simp [sealedVals, hupdate]
    · have hkeep : keepStep meets (some target) (some incoming) = some probe := by
        simp [keepStep, sealedVals, hupdate]
      exact ⟨.inr ⟨probe, true, out', hkeep, rfl, hcanon⟩, out', by simp [sealedVals, hupdate]⟩

/-! ## One merge -/

/-- What the levels are after the out-stores `outs` were merged in. -/
structure MeetMerged (meets : List MeetAggr) (levels : LevelStack MeetLevel)
    (outs : List MeetAggrStore) : Prop where
  holds : Holds groups id levels.iter (storedOf meets outs)
  delta : levels.last.groups = sealedGroups meets (storedOf meets outs.dropLast)
    (outs.getLast?.elim [] fun out => out.byGroup.toList)
  folds : ∀ k, FoldAgrees meets (storedOf meets outs k) (foldAccums meets (accumsOf outs k))
  reports : ∀ k flag vals, foldAccums meets (accumsOf outs k) = .ok (some (flag, vals)) →
    (lookupKey levels.last.groups k).isSome =
      (outs.getLast?.any (fun out => out.byGroup.contains k) && flag)

lemma meetMerged_singleton (meets : List MeetAggr) : MeetMerged meets (.singleton ⟨[]⟩) [] where
  holds :=
    { ascend := by simp [LevelStack.singleton, LevelStack.iter, KeysAscend]
      newest_eq := fun k => rfl }
  delta := rfl
  folds k := .inl ⟨rfl, rfl⟩
  reports k flag vals h := by cases h

lemma holds_compactMeet {s : LevelStack MeetLevel} (h : Holds groups id s.iter total) :
    Holds groups id (compactMeet s).iter total := by
  refine compactWhile_invariant
    (P := fun levels => Holds groups id levels total) ?_ h
  intro below older newer merged hmerged hbelow
  cases hmerged
  exact hbelow.merge (fun _ => rfl) rfl

lemma MeetMerged.findGroup_eq {levels : LevelStack MeetLevel}
    (h : MeetMerged meets levels outs) (k : OwnBareKey) :
    findGroup levels.iter k = storedOf meets outs k := by
  rw [Kyzo.findGroup_eq h.holds.ascend, ← h.holds.newest_eq k, Option.map_id_fun, id]

/-- **One barrier merge.** -/
theorem MeetMerged.mergeMeet {levels levels' : LevelStack MeetLevel} {new : MeetAggrStore}
    (h : MeetMerged spec.meets levels outs) (hrun : mergeMeet spec levels new = (.ok n, levels')) :
    MeetMerged spec.meets levels' (outs ++ [new]) ∧ n = levels'.last.groups.length := by
  rw [Kyzo.mergeMeet] at hrun
  rcases hseal : sealGroups spec levels.iter new.byGroup.toList [] 0 with e | ⟨level, admitted⟩
  · rw [hseal] at hrun
    cases hrun
  rw [hseal] at hrun
  cases hrun
  obtain ⟨hgroups, hn, hok⟩ := (sealGroups_spec h.findGroup_eq).mp hseal
  rw [nil_append] at hgroups
  have hascend : KeysAscend new.byGroup.toList := keysAscend_toList _
  have hlast : ∀ k, lookupKey level.groups k = new.byGroup[k]?.bind fun incoming =>
      sealedVals spec.meets incoming (storedOf spec.meets outs k) := by
    intro k
    rw [hgroups, lookupKey_sealedGroups _ _ hascend, lookupKey_toList]
  -- What one epoch does to one group.
  have hstep : ∀ k incoming, new.byGroup[k]? = some incoming →
      FoldAgrees spec.meets (storedOf spec.meets (outs ++ [new]) k)
          (foldAccums spec.meets (accumsOf (outs ++ [new]) k)) ∧
        ∃ vals', foldAccums spec.meets (accumsOf (outs ++ [new]) k) =
          .ok (some ((lookupKey level.groups k).isSome, vals')) := by
    intro k incoming hk
    have hmem := mem_toList_iff_getElem?_eq_some.mpr hk
    have := (h.folds k).step (hok _ hmem)
    rwa [storedOf_concat, accumsOf_concat, hlast, hk, toList_some, foldAccums_concat]
  refine ⟨⟨?_, ?_, ?_, ?_⟩, ?_⟩
  · have hempty : ∀ l : MeetLevel, l.groups.isEmpty = true → l.groups = [] :=
      fun l => isEmpty_iff.mp
    have hbelow := holds_compactMeet (holds_dropConsumedEmptyDelta hempty h.holds)
    have hpush := hbelow.concat
      (hgroups ▸ keysAscend_sealedGroups _ _ hascend)
    rw [iter_push]
    convert hpush using 2 with k
    rw [storedOf_concat, hlast, Option.map_id_fun]
    cases new.byGroup[k]? <;> rfl
  · rw [last_push, hgroups, dropLast_concat, getLast?_concat]
    rfl
  · intro k
    rcases hk : new.byGroup[k]? with _ | incoming
    · rw [storedOf_concat, accumsOf_concat, hk, toList_none, append_nil]
      exact h.folds k
    · exact (hstep k incoming hk).1
  · intro k flag vals hfold
    rw [last_push, getLast?_concat, any_some]
    rcases hk : new.byGroup[k]? with _ | incoming
    · rw [hlast, contains_eq_isSome_getElem?, hk]
      rfl
    · obtain ⟨vals', hvals'⟩ := (hstep k incoming hk).2
      rw [hfold] at hvals'
      cases hvals'
      rw [contains_eq_isSome_getElem?, hk]
      rfl
  · rw [last_push, hgroups, hn, Nat.zero_add]

/-! ## The total and the delta -/

section

variable (meets outs) (k : OwnBareKey)

/-- The last merge brought the group in, or its update reported a change. -/
def reported : Bool :=
  outs.getLast?.any (fun out => out.byGroup.contains k) &&
    match foldAccums meets (accumsOf outs k) with
    | .ok (some (flag, _)) => flag
    | _ => false

lemma isSome_storedOf :
    (storedOf meets outs k).isSome = true ↔ ∃ out ∈ outs, out.byGroup[k]?.isSome = true := by
  have hkeep : ∀ stored incoming, (keepStep meets stored incoming).isSome =
      (stored.isSome || incoming.isSome) := by
    rintro (_ | target) (_ | incoming) <;> simp [keepStep, sealedVals]
  induction outs using reverseRecOn with
  | nil => simp [storedOf]
  | append_singleton outs new ih =>
    rw [storedOf_concat, hkeep, Bool.or_eq_true]
    refine (or_congr_left ih).trans ?_
    simp [mem_append, or_and_right, exists_or]

end

lemma storedOf_invariant {k : OwnBareKey}
    {P : List MeetAccum → Prop} (houts : ∀ out ∈ outs, ∀ vals, out.byGroup[k]? = some vals → P vals)
    (hupdate : ∀ target incoming changed vals, P target →
      updateAll meets target incoming = .ok (changed, vals) → P vals) :
    ∀ vals, storedOf meets outs k = some vals → P vals := by
  induction outs using reverseRecOn with
  | nil =>
    intro vals hvals
    cases hvals
  | append_singleton outs new ih =>
    have hprev := ih fun out hout => houts out (mem_append_left _ hout)
    have hnew := houts new (by simp)
    intro vals hvals
    rw [storedOf_concat] at hvals
    rcases hk : new.byGroup[k]? with _ | incoming
    · rw [hk] at hvals
      exact hprev vals hvals
    rw [hk, keepStep] at hvals
    rcases hstored : storedOf meets outs k with _ | target
    · rw [hstored] at hvals
      exact hnew vals (hk.trans hvals)
    rw [hstored, sealedVals] at hvals
    split at hvals
    · next probe hprobe =>
      obtain rfl : probe = vals := by simpa using hvals
      exact hupdate target incoming true probe (hprev target hstored) hprobe
    · exact hprev vals (hstored.trans hvals)

namespace MeetMerged

variable {levels : LevelStack MeetLevel}

/-- All groups, ascending by key. -/
def groupsOf (levels : LevelStack MeetLevel) : List (OwnBareKey × List MeetAccum) :=
  mergeLevels (levels.iter.map groups)

section

variable (h : MeetMerged meets levels outs)

include h

lemma keysAscend_groupsOf : KeysAscend (groupsOf levels) :=
  keysAscend_mergeLevels h.holds.ascend_rows

lemma lookupKey_groupsOf (k : OwnBareKey) :
    lookupKey (groupsOf levels) k = storedOf meets outs k := by
  rw [groupsOf, lookupKey_mergeLevels h.holds.ascend_rows, ← h.holds.newest_eq, Option.map_id_fun,
    id]

variable {k : OwnBareKey} {vals : List MeetAccum}

lemma mem_groupsOf : (k, vals) ∈ groupsOf levels ↔ storedOf meets outs k = some vals := by
  rw [← lookupKey_eq_some h.keysAscend_groupsOf, h.lookupKey_groupsOf]

lemma storedOf_of_last (hlast : lookupKey levels.last.groups k = some vals) :
    storedOf meets outs k = some vals := by
  rw [h.delta] at hlast
  rcases eq_nil_or_concat outs with rfl | ⟨earlier, new, rfl⟩
  · cases hlast
  · rw [concat_eq_append, getLast?_concat, dropLast_concat, elim_some,
      lookupKey_sealedGroups _ _ (keysAscend_toList _), lookupKey_toList] at hlast
    obtain ⟨incoming, hk, hvals⟩ := bind_eq_some_iff.mp hlast
    rw [concat_eq_append, storedOf_concat, hk, keepStep, hvals, some_or]

lemma isSome_last (k : OwnBareKey) : (lookupKey levels.last.groups k).isSome =
      ((storedOf meets outs k).isSome && reported meets outs k) := by
  rcases h.folds k with ⟨hnone, -⟩ | ⟨vals, flag, vals', hsome, hfold, -⟩
  · rw [hnone, isSome_none, Bool.false_and, isSome_eq_false_iff, isNone_iff_eq_none]
    by_contra hne
    obtain ⟨vals, hvals⟩ := ne_none_iff_exists'.mp hne
    rw [h.storedOf_of_last hvals] at hnone
    cases hnone
  · rw [h.reports k flag vals' hfold, hsome, reported, hfold]
    rfl

/-- **The delta**: the groups of the newest level are the reported ones. -/
theorem last_groups :
    levels.last.groups = (groupsOf levels).filter fun e => reported meets outs e.1 := by
  refine eq_of_lookupKey (h.holds.ascend _ levels.last_mem_iter) (h.keysAscend_groupsOf.filter _) ?_
  intro k
  rw [lookupKey_filter _ (reported meets outs), h.lookupKey_groupsOf]
  have hsome := h.isSome_last k
  rcases hlast : lookupKey levels.last.groups k with _ | vals
  · rw [hlast] at hsome
    rcases hstored : storedOf meets outs k with _ | vals
    · simp
    · rw [hstored] at hsome
      simp [show reported meets outs k = false by simpa using hsome.symm]
  · rw [hlast, h.storedOf_of_last hlast] at hsome
    rw [h.storedOf_of_last hlast, if_pos (by simpa using hsome.symm)]

end

end MeetMerged

end Kyzo

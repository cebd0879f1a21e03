import Kyzo.Exec.MeetScan
import Kyzo.Exec.NormalRuns

/-!
# Runs of a meet store

What a sequence of epochs leaves in a meet store: an epoch folds its rows group by group into an
out-store, and the barrier merges fold the out-stores group by group into the total.  One sorted
list of groups says what every scan then yields.
-/

namespace Kyzo

open List Std EpochStore MeetAggrStore Function OwnBareKey MeetMerged LawfulEqOrd

/-! ## Out-stores -/

/-- One epoch's derivations, put one by one. -/
def MeetAggrStore.putAll (s : MeetAggrStore) : List Tuple → Except AggrError MeetAggrStore
  | [] => .ok s
  | t :: rows => do
    let (_, s) ← s.meetPut t
    s.putAll rows

/-- One put, seen by its group: the first one folds into the identities. -/
def putStep (meets : List MeetAggr) (vals : Option (List MeetAccum)) (incoming : List MeetAccum) :
    Except AggrError (Option (List MeetAccum)) :=
  (updateAll meets (vals.getD (meets.map MeetAggr.initVal)) incoming).map fun r => some r.2

/-- An epoch, seen by one group: the left-to-right fold of its rows. -/
def epochFold (s : MeetAggrStore) (rows : List Tuple) (k : OwnBareKey) :
    Except AggrError (Option (List MeetAccum)) :=
  ((rows.filter fun t => compare (s.layout.borrowKey t) k == .eq).map s.incoming).foldlM
    (putStep s.meets) s.byGroup[k]?

variable {rows : List Tuple}

namespace MeetAggrStore

variable {s s' : MeetAggrStore} {t : Tuple}

/-- **One put** folds one group. -/
theorem meetPut_spec {changed : Bool} (h : s.meetPut t = .ok (changed, s')) :
    ∃ vals, putStep s.meets s.byGroup[s.layout.borrowKey t]? (s.incoming t) = .ok (some vals) ∧
      s' = { s with byGroup := s.byGroup.insert (s.layout.borrowKey t) vals } := by
  rw [meetPut] at h
  rcases hk : s.byGroup[s.layout.borrowKey t]? with _ | target
  · simp only [hk] at h
    obtain ⟨⟨c, vals⟩, hupdate, h⟩ := bind_ok h
    cases h
    exact ⟨vals, by rw [putStep, Option.getD_none, hupdate]; rfl, rfl⟩
  · simp only [hk] at h
    obtain ⟨⟨c, vals⟩, hupdate, h⟩ := bind_ok h
    cases h
    exact ⟨vals, by rw [putStep, Option.getD_some, hupdate]; rfl, rfl⟩

lemma putAll_cons (h : s.putAll (t :: rows) = .ok s') :
    ∃ vals, putStep s.meets s.byGroup[s.layout.borrowKey t]? (s.incoming t) = .ok (some vals) ∧
      { s with byGroup := s.byGroup.insert (s.layout.borrowKey t) vals }.putAll rows = .ok s' := by
  obtain ⟨⟨changed, s₁⟩, hput, h⟩ := bind_ok h
  obtain ⟨vals, hvals, rfl⟩ := meetPut_spec hput
  exact ⟨vals, hvals, h⟩

variable (h : s.putAll rows = .ok s')
include h

/-- **An epoch folds each group on its own.** -/
theorem putAll_spec :
    s'.meets = s.meets ∧ s'.layout = s.layout ∧ ∀ k, epochFold s rows k = .ok s'.byGroup[k]? := by
  induction rows generalizing s with
  | nil =>
    cases h
    exact ⟨rfl, rfl, fun k => rfl⟩
  | cons t rows ih =>
    obtain ⟨vals, hvals, h⟩ := putAll_cons h
    obtain ⟨hmeets, hlayout, hfold⟩ := ih h
    refine ⟨hmeets, hlayout, fun k => ?_⟩
    rw [← hfold k, epochFold, epochFold, filter_cons]
    by_cases hk : s.layout.borrowKey t = k
    · subst hk
      have hself : (compare (s.layout.borrowKey t) (s.layout.borrowKey t) == .eq) = true :=
        beq_iff_eq.mpr ReflCmp.compare_self
      rw [if_pos hself, map_cons, foldlM_cons, hvals]
      simp only [TreeMap.getElem?_insert_self]
      rfl
    · have hne : ¬ compare (s.layout.borrowKey t) k = .eq :=
        fun heq => hk (eq_of_compare heq)
      rw [if_neg (mt beq_iff_eq.mp hne)]
      simp only [TreeMap.getElem?_insert, if_neg hne]
      rfl

lemma isSome_putAll (k : OwnBareKey) : s'.byGroup[k]?.isSome = true ↔
      s.byGroup[k]?.isSome = true ∨ ∃ t ∈ rows, s.layout.borrowKey t = k := by
  induction rows generalizing s with
  | nil =>
    cases h
    simp
  | cons t rows ih =>
    obtain ⟨vals, -, h⟩ := putAll_cons h
    rw [ih h, exists_mem_cons_iff, ← or_assoc]
    refine or_congr_left ?_
    rw [TreeMap.getElem?_insert]
    split_ifs with heq
    · simp [eq_of_compare heq]
    · have hne : s.layout.borrowKey t ≠ k := by
        rintro rfl
        exact heq ReflCmp.compare_self
      simp [hne]

/-- **The out-store's groups have the shape of its layout.** -/
theorem fits_putAll (hmeets : s.meets.length = s.layout.valPositions.length)
    (hwidth : ∀ t ∈ rows, s.layout.arity ≤ t.length)
    (hfits : ∀ k vals, s.byGroup[k]? = some vals → s.layout.Fits (k, vals)) :
    ∀ k vals, s'.byGroup[k]? = some vals → s.layout.Fits (k, vals) := by
  induction rows generalizing s with
  | nil =>
    cases h
    exact hfits
  | cons t rows ih =>
    obtain ⟨vals, hvals, h⟩ := putAll_cons h
    obtain ⟨ht, hrows⟩ := forall_mem_cons.mp hwidth
    refine ih (s := { s with byGroup := s.byGroup.insert (s.layout.borrowKey t) vals }) h hmeets
      hrows ?_
    intro k vals' hk
    rw [TreeMap.getElem?_insert] at hk
    split_ifs at hk with heq
    · cases hk
      obtain rfl := eq_of_compare heq
      refine ⟨?_, ?_⟩
      · rw [s.layout.borrowKey_eq ht, tuple_encode, s.layout.length_projectKey]
      · obtain ⟨⟨c, out⟩, hupdate, hout⟩ := map_eq_ok.mp hvals
        cases hout
        rw [length_updateAll hupdate]
        rcases htarget : s.byGroup[s.layout.borrowKey t]? with _ | target
        · rw [Option.getD_none, length_map, hmeets]
        · exact (hfits _ target htarget).2
    · exact hfits k vals' hk

end MeetAggrStore

/-! ## Signatures -/

lemma length_valPositions (aggrs : List HeadAggrSlot) :
    (MeetLayout.fromSignature aggrs).valPositions.length =
      aggrs.countP HeadAggrSlot.isAggregated := by
  change ((List.range aggrs.length).filter fun i => aggrs[i]?.any (·.isAggregated)).length = _
  induction aggrs with
  | nil => rfl
  | cons aggr aggrs ih =>
    rw [length_cons, range_succ_eq_map, filter_cons, filter_map, countP_cons, ← ih]
    cases haggr : aggr.isAggregated <;> simp [haggr, comp_def]

lemma MeetAggrStore.length_meets {aggrs : List HeadAggrSlot} {s : MeetAggrStore}
    (h : new aggrs = .ok s) :
    s.meets.length = s.layout.valPositions.length ∧ s.layout = .fromSignature aggrs ∧
      s.byGroup = ∅ := by
  have hlen : ∀ meets, resolveMeets aggrs = .ok meets →
      meets.length = aggrs.countP HeadAggrSlot.isAggregated := by
    clear h
    induction aggrs with
    | nil =>
      intro meets hmeets
      cases hmeets
      rfl
    | cons aggr aggrs ih =>
      intro meets hmeets
      rcases aggr with _ | ⟨aggr, args⟩
      · exact ih meets hmeets
      · rw [resolveMeets] at hmeets
        rcases hop : meetOp aggr with _ | op
        · simp only [hop] at hmeets
          cases hmeets
        · simp only [hop] at hmeets
          obtain ⟨meets', hmeets', rfl⟩ := map_eq_ok.mp hmeets
          rw [length_cons, ih meets' hmeets', countP_cons]
          rfl
  obtain ⟨meets, hmeets, rfl⟩ := map_eq_ok.mp h
  exact ⟨(hlen meets hmeets).trans (length_valPositions aggrs).symm, rfl, rfl⟩

/-! ## Runs of merges -/

variable {spec : MeetSpec} {levels : LevelStack MeetLevel} {outs : List MeetAggrStore}

lemma EpochStore.mergeIn_meet {s s' : EpochStore} (hkind : s.kind = .meet spec levels)
    {new : MeetAggrStore} {n : ℕ} (hrun : s.mergeIn (.meetAggr new) = (.ok n, s')) :
    ∃ levels', Kyzo.mergeMeet spec levels new = (.ok n, levels') ∧
      s'.kind = .meet spec levels' := by
  rw [mergeIn.eq_def] at hrun
  simp only [hkind] at hrun
  rcases hmerge : Kyzo.mergeMeet spec levels new with ⟨e | m, levels'⟩
  · rw [hmerge] at hrun
    cases hrun
  · rw [hmerge] at hrun
    cases hrun
    exact ⟨levels', rfl, rfl⟩

namespace MeetMerged

/-- **A run of merges.** -/
theorem mergeAll {news outs : List MeetAggrStore} {s s' : EpochStore} {spec : MeetSpec}
    (hkind : s.kind = .meet spec levels) (h : MeetMerged spec.meets levels outs) {ns : List ℕ}
    (hrun : s.mergeAll (news.map .meetAggr) = .ok (s', ns)) :
    ∃ levels', s'.kind = .meet spec levels' ∧ MeetMerged spec.meets levels' (outs ++ news) := by
  induction news generalizing s levels outs ns with
  | nil =>
    cases hrun
    exact ⟨levels, hkind, by rwa [append_nil]⟩
  | cons new news ih =>
    rw [map_cons, mergeAll] at hrun
    rcases hstep : s.mergeIn (.meetAggr new) with ⟨e | n, s₁⟩
    · simp only [hstep] at hrun
      cases hrun
    · simp only [hstep] at hrun
      obtain ⟨⟨s₂, ns'⟩, hrest, heq⟩ := map_eq_ok.mp hrun
      cases heq
      obtain ⟨levels₁, hmerge, hkind₁⟩ := mergeIn_meet hkind hstep
      obtain ⟨hmerged, -⟩ := h.mergeMeet hmerge
      obtain ⟨levels', hkind', hmerged'⟩ := ih hkind₁ hmerged hrest
      exact ⟨levels', hkind', by rwa [append_assoc] at hmerged'⟩

/-! ## Scans -/

lemma fits (h : MeetMerged spec.meets levels outs)
    (houts : ∀ out ∈ outs, ∀ k vals, out.byGroup[k]? = some vals → spec.layout.Fits (k, vals)) :
    ∀ e ∈ groupsOf levels, spec.layout.Fits e := by
  rintro ⟨k, vals⟩ he
  refine storedOf_invariant
    (fun out hout => houts out hout k) ?_ vals (h.mem_groupsOf.mp he)
  intro target incoming changed vals' htarget hupdate
  exact ⟨htarget.1, (length_updateAll hupdate).trans htarget.2⟩

/-- The groups a scan ranges over, sorted. -/
noncomputable def scanned (spec : MeetSpec) (levels : LevelStack MeetLevel)
    (outs : List MeetAggrStore) (deltaOnly : Bool) : List (OwnBareKey × List MeetAccum) :=
  if deltaOnly then
    (spec.layout.sortGroups (groupsOf levels)).filter fun e => reported spec.meets outs e.1
  else spec.layout.sortGroups (groupsOf levels)

/-- **Every ranged scan** yields the groups within its bounds, sorted by head row. -/
theorem meetRanged (h : MeetMerged spec.meets levels outs)
    (hfits : ∀ e ∈ groupsOf levels, spec.layout.Fits e)
    (hshallow : spec.layout.isSuffix = true ∨ ∀ e ∈ groupsOf levels, e.1.tuple.Shallow)
    (lower upper : Bytes) (upperInclusive deltaOnly : Bool) :
    meetRanged spec (picked levels deltaOnly) (if deltaOnly then [] else levels.iter)
        lower upper upperInclusive =
      .ok (((scanned spec levels outs deltaOnly).filter fun e =>
        withinBounds lower upper upperInclusive (spec.layout.rowOf e).bare).map
          spec.layout.meetView) := by
  have hpicked : ∀ l ∈ picked levels deltaOnly, l ∈ levels.iter := by
    intro l hl
    cases deltaOnly
    · exact hl
    · rw [mem_singleton.mp hl]
      exact levels.last_mem_iter
  have hasc : ∀ l ∈ picked levels deltaOnly, KeysAscend l.groups :=
    fun l hl => h.holds.ascend l (hpicked l hl)
  -- The groups of the picked levels, merged and sorted.
  have hmerged : mergeLevels ((picked levels deltaOnly).map MeetLevel.groups) =
      if deltaOnly then (groupsOf levels).filter fun e => reported spec.meets outs e.1
      else groupsOf levels := by
    cases deltaOnly
    · rfl
    · rw [← h.last_groups]
      exact mergeLevels_singleton (h.holds.ascend _ levels.last_mem_iter)
  have hsort : spec.layout.sortGroups
      (mergeLevels ((picked levels deltaOnly).map MeetLevel.groups)) =
      scanned spec levels outs deltaOnly := by
    rw [hmerged]
    cases deltaOnly
    · rfl
    · exact MeetLayout.sortGroups_filter h.keysAscend_groupsOf (fun e he => (hfits e he).1) _
  have hfits' : ∀ e ∈ mergeLevels ((picked levels deltaOnly).map MeetLevel.groups),
      spec.layout.Fits e := by
    rw [hmerged]
    cases deltaOnly
    · exact hfits
    · exact fun e he => hfits e (mem_of_mem_filter he)
  rw [← hsort]
  rcases hsuffix : spec.layout.isSuffix with _ | _
  · have hdeep := hshallow.resolve_left (by simp [hsuffix])
    refine meetRanged_interleaved hsuffix hasc ?_ hfits' ?_ lower upper upperInclusive
    · intro l hl e he
      obtain ⟨vals, hvals⟩ := h.holds.exists_of_mem_rows (hpicked l hl) he
      have hmem := h.mem_groupsOf.mpr hvals
      exact ⟨(hfits _ hmem).1, hdeep (e.1, vals) hmem⟩
    · intro i
      cases deltaOnly
      · rfl
      · simp [picked]
  · exact meetRanged_suffix hsuffix hasc hfits' _ lower upper upperInclusive

end MeetMerged

/-! ## Refinement -/

/-- The views of a list of groups. -/
def MeetLayout.views (l : MeetLayout) (groups : List (Tuple × List MeetAccum)) : List TupleInIter :=
  groups.map fun e => l.groupView e.1 e.2

/-- Every scan of the store reads the list `groups`, of which the groups of `isDelta` are its
delta. -/
structure ScansGroups (l : MeetLayout) (store : EpochStore) (isDelta : Tuple → Bool)
    (groups : List (Tuple × List MeetAccum)) : Prop where
  all : store.allIter = .ok (l.views groups)
  deltaAll : store.deltaAllIter = .ok (l.views (groups.filter fun e => isDelta e.1))
  range : ∀ lower upper upperInclusive, store.rangeIter lower upper upperInclusive =
    .ok (l.views (groups.filter fun e => inBounds lower upper upperInclusive (l.headRow e.1 e.2)))
  deltaRange : ∀ lower upper upperInclusive, store.deltaRangeIter lower upper upperInclusive =
    .ok (l.views ((groups.filter fun e => isDelta e.1).filter fun e =>
      inBounds lower upper upperInclusive (l.headRow e.1 e.2)))
  underPrefix : ∀ p, store.prefixIter p =
    .ok (l.views (groups.filter fun e => decide (p <+: l.headRow e.1 e.2)))
  deltaUnderPrefix : ∀ p, store.deltaPrefixIter p =
    .ok (l.views ((groups.filter fun e => isDelta e.1).filter fun e =>
      decide (p <+: l.headRow e.1 e.2)))
  underProjected : ∀ row cols deltaOnly, store.prefixIterProjected row cols deltaOnly =
    .ok (l.views ((if deltaOnly then groups.filter fun e => isDelta e.1 else groups).filter fun e =>
      decide (projected row cols <+: l.headRow e.1 e.2)))

lemma scansGroups_of_ranged {store : EpochStore}
    (hkind : store.kind = .meet spec levels) {isDelta : Tuple → Bool}
    {groups : List (Tuple × List MeetAccum)} (h : ∀ lower upper upperInclusive deltaOnly,
      meetRanged spec (picked levels deltaOnly) (if deltaOnly then [] else levels.iter)
          lower upper upperInclusive =
        .ok (spec.layout.views ((if deltaOnly then groups.filter fun e => isDelta e.1
          else groups).filter fun e => withinBounds lower upper upperInclusive
            (spec.layout.headRow e.1 e.2).bare))) :
    ScansGroups spec.layout store isDelta groups := by
  have hranged : ∀ lower upper upperInclusive deltaOnly,
      store.ranged lower upper upperInclusive deltaOnly =
        .ok (spec.layout.views ((if deltaOnly then groups.filter fun e => isDelta e.1
          else groups).filter fun e => withinBounds lower upper upperInclusive
            (spec.layout.headRow e.1 e.2).bare)) := by
    intro lower upper upperInclusive deltaOnly
    rw [ranged.eq_def, ← h]
    simp [hkind]
  have hfront' : ∀ (p : Tuple) deltaOnly, store.ranged p.bare (p.bare ++ [0xFF]) true deltaOnly =
      .ok (spec.layout.views ((if deltaOnly then groups.filter fun e => isDelta e.1
        else groups).filter fun e => decide (p <+: spec.layout.headRow e.1 e.2))) := by
    intro p deltaOnly
    rw [hranged]
    simp [withinBounds_isPrefix]
  refine ⟨?_, ?_, ?_, ?_, fun p => hfront' p false, fun p => hfront' p true, ?_⟩
  · refine (hfront' [] false).trans ?_
    simp
  · refine (hfront' [] true).trans ?_
    simp
  · intro lower upper upperInclusive
    rw [rangeIter, hranged]
    simp only [withinBounds_bare]
    rfl
  · intro lower upper upperInclusive
    rw [deltaRangeIter, hranged]
    simp only [withinBounds_bare]
    rfl
  · intro row cols deltaOnly
    rw [prefixIterProjected.eq_def]
    simp only [hkind]
    rw [h]
    simp [withinBounds_isPrefix]

namespace MeetMerged

/-- The groups of a store with the rows of their keys, in the order of their head rows. -/
noncomputable def headGroups (l : MeetLayout) (levels : LevelStack MeetLevel) :
    List (Tuple × List MeetAccum) :=
  (l.sortGroups (groupsOf levels)).map fun e => (e.1.tuple, e.2)

section

variable (l : MeetLayout) (h : MeetMerged spec.meets levels outs)
include h

lemma mem_headGroups (key : Tuple) (vals : List MeetAccum) :
    (key, vals) ∈ headGroups l levels ↔ storedOf spec.meets outs (.encode key) = some vals := by
  rw [headGroups, ← h.mem_groupsOf, ← (l.sortGroups_perm _).mem_iff, mem_map]
  constructor
  · rintro ⟨e, he, heq⟩
    cases heq
    rwa [encode_tuple]
  · intro he
    exact ⟨_, he, by rw [tuple_encode]⟩

lemma mem_keys_headGroups (key : Tuple) : key ∈ (headGroups l levels).map Prod.fst ↔
      ∃ out ∈ outs, out.byGroup[encode key]?.isSome = true := by
  rw [← isSome_storedOf spec.meets, mem_map, Option.isSome_iff_exists]
  constructor
  · rintro ⟨⟨key', vals⟩, he, rfl⟩
    exact ⟨vals, (h.mem_headGroups l _ vals).mp he⟩
  · rintro ⟨vals, hvals⟩
    exact ⟨(key, vals), (h.mem_headGroups l key vals).mpr hvals, rfl⟩

lemma nodup_keys_headGroups : ((headGroups l levels).map Prod.fst).Nodup := by
  have hnodup : (((groupsOf levels).map Prod.fst).map tuple).Nodup := by
    refine (nodup_keys h.keysAscend_groupsOf).map fun a b heq => ?_
    rw [← a.encode_tuple, heq, b.encode_tuple]
  rw [map_map] at hnodup
  rw [headGroups, map_map]
  exact ((l.sortGroups_perm _).map _).nodup_iff.mpr hnodup

end

/-- **The scans of a store read its groups.** -/
theorem scansGroups {store : EpochStore} (hkind : store.kind = .meet spec levels)
    (h : MeetMerged spec.meets levels outs) (hfits : ∀ e ∈ groupsOf levels, spec.layout.Fits e)
    (hshallow : spec.layout.isSuffix = true ∨ ∀ e ∈ headGroups spec.layout levels, e.1.Shallow) :
    ScansGroups spec.layout store (fun key => reported spec.meets outs (.encode key))
      (headGroups spec.layout levels) := by
  have hshallow' : spec.layout.isSuffix = true ∨ ∀ e ∈ groupsOf levels, e.1.tuple.Shallow := by
    refine hshallow.imp_right fun hall e he => hall (e.1.tuple, e.2) ?_
    exact mem_map_of_mem ((spec.layout.sortGroups_perm _).mem_iff.mpr he)
  refine scansGroups_of_ranged hkind ?_
  intro lower upper upperInclusive deltaOnly
  rw [h.meetRanged hfits hshallow', headGroups, MeetLayout.views]
  cases deltaOnly
  · simp only [Bool.false_eq_true, if_false, filter_map, map_map]
    rfl
  · simp only [if_true, filter_map, map_map]
    simp only [comp_def, encode_tuple]
    rfl

end MeetMerged

lemma isSome_putAll_fresh {fresh out : MeetAggrStore}
    (hempty : fresh.byGroup = ∅) (hwidth : ∀ t ∈ rows, fresh.layout.arity ≤ t.length)
    (hput : fresh.putAll rows = .ok out) (key : Tuple) :
    out.byGroup[encode key]?.isSome = true ↔
      ∃ t ∈ rows, fresh.layout.projectKey t = key := by
  rw [isSome_putAll hput, hempty, TreeMap.getElem?_emptyc]
  simp only [Option.isSome_none, Bool.false_eq_true, false_or]
  refine exists_congr fun t => and_congr_right fun ht => ?_
  rw [fresh.layout.borrowKey_eq (hwidth t ht)]
  constructor
  · intro heq
    rw [← tuple_encode (fresh.layout.projectKey t), heq, tuple_encode]
  · rintro rfl
    rfl

/-- **A meet store refines a map from groups to folded accumulators.**  After any run of epochs and
merges there is one list of groups, strictly ascending by head row, with one entry for each group
that a row was put into.  Its values stand for the left-to-right folds of the epochs' accumulators,
which in turn are the folds of the epochs' rows.  Views show head rows, and every scan reads the
list back: fully, in a range or under a prefix, the total or the groups the last merge reported.  On
an interleaved layout this asks that the group keys nest no deeper than the decoder reaches. -/
theorem meet_store_refines_map {aggrs : List HeadAggrSlot} {fresh : MeetAggrStore}
    {init store : EpochStore} {epochs : List (List Tuple)} {outs : List MeetAggrStore}
    {admitted : List ℕ} (hfresh : new aggrs = .ok fresh) (hinit : newMeet aggrs = .ok init)
    (hwidth : ∀ rows ∈ epochs, ∀ t ∈ rows, aggrs.length ≤ t.length)
    (houts : epochs.mapM fresh.putAll = .ok outs)
    (hrun : init.mergeAll (outs.map .meetAggr) = .ok (store, admitted)) :
    ∃ groups : List (Tuple × List MeetAccum),
      groups.Pairwise (fun a b =>
        compare (fresh.layout.headRow a.1 a.2) (fresh.layout.headRow b.1 b.2) = .lt) ∧
      (groups.map Prod.fst).Nodup ∧
      (∀ key, key ∈ groups.map Prod.fst ↔
        ∃ rows ∈ epochs, ∃ t ∈ rows, fresh.layout.projectKey t = key) ∧
      (∀ k, epochs.mapM (fun rows => epochFold fresh rows k) =
        .ok (outs.map fun out => out.byGroup[k]?)) ∧
      (∀ key vals, (key, vals) ∈ groups → ∃ flag folded,
        foldAccums fresh.meets (accumsOf outs (.encode key)) = .ok (some (flag, folded)) ∧
          canonAll fresh.meets vals = canonAll fresh.meets folded) ∧
      (∀ e ∈ groups, (fresh.layout.groupView e.1 e.2).full = (fresh.layout.headRow e.1 e.2).bare) ∧
      (fresh.layout.isSuffix = true ∨ (∀ e ∈ groups, e.1.Shallow) →
        ScansGroups fresh.layout store (fun key => reported fresh.meets outs (.encode key))
          groups) := by
  obtain ⟨hmeets, hlayout, hempty⟩ := length_meets hfresh
  rw [newMeet, hfresh] at hinit
  cases hinit
  obtain ⟨levels, hkind, h⟩ := mergeAll rfl (meetMerged_singleton _) hrun
  obtain ⟨hepoch, hout⟩ := mapM_mem houts
  have hwidth' : ∀ rows ∈ epochs, ∀ t ∈ rows, fresh.layout.arity ≤ t.length := by
    rw [hlayout]
    exact hwidth
  have hfits : ∀ e ∈ groupsOf levels, fresh.layout.Fits e := by
    refine h.fits ?_
    intro out hmem
    obtain ⟨rows, hrows, hput⟩ := hout out hmem
    refine fits_putAll hput hmeets (hwidth' rows hrows) ?_
    intro k vals hk
    rw [hempty] at hk
    cases hk
  refine ⟨headGroups fresh.layout levels, ?_, h.nodup_keys_headGroups _, ?_, ?_, ?_, ?_,
    h.scansGroups hkind hfits⟩
  · exact pairwise_map.mpr
      (MeetLayout.pairwise_sortGroups h.keysAscend_groupsOf fun e he => (hfits e he).1)
  · intro key
    rw [h.mem_keys_headGroups]
    constructor
    · rintro ⟨out, hmem, hsome⟩
      obtain ⟨rows, hrows, hput⟩ := hout out hmem
      exact ⟨rows, hrows, (isSome_putAll_fresh hempty (hwidth' rows hrows) hput key).mp hsome⟩
    · rintro ⟨rows, hrows, ht⟩
      obtain ⟨out, hmem, hput⟩ := hepoch rows hrows
      exact ⟨out, hmem, (isSome_putAll_fresh hempty (hwidth' rows hrows) hput key).mpr ht⟩
  · intro k
    exact mapM_map houts fun rows _ out hput => (putAll_spec hput).2.2 k
  · intro key vals hvals
    rw [h.mem_headGroups] at hvals
    obtain ⟨hnone, -⟩ | ⟨vals', flag, folded, hstored, hfold, hcanon⟩ := h.folds (.encode key)
    · cases hvals.symm.trans hnone
    · cases hvals.symm.trans hstored
      exact ⟨flag, folded, hfold, hcanon⟩
  · intro e he
    obtain ⟨e', he', rfl⟩ := mem_map.mp he
    exact MeetLayout.full_meetView (hfits e' ((fresh.layout.sortGroups_perm _).mem_iff.mp he'))

/-- An interleaved head folded through `or`: the second epoch moves the one group. -/
theorem meet_store_refines_map_interleaved :
    ∃ (fresh : MeetAggrStore) (store : EpochStore) (groups : List (Tuple × List MeetAccum))
      (isDelta : Tuple → Bool),
      new [.aggregated ⟨"or", .meet⟩ [], .plain] = .ok fresh ∧
      fresh.layout.isSuffix = false ∧
      (∀ key, key ∈ groups.map Prod.fst ↔ ∃ rows ∈ [[[.bool false, .null]], [[.bool true, .null]]],
        ∃ t ∈ rows, fresh.layout.projectKey t = key) ∧
      ScansGroups fresh.layout store isDelta groups := by
  have hrun : ∃ (fresh : MeetAggrStore) (init store : EpochStore) (outs : List MeetAggrStore)
      (admitted : List ℕ),
      new [.aggregated ⟨"or", .meet⟩ [], .plain] = .ok fresh ∧
      newMeet [.aggregated ⟨"or", .meet⟩ [], .plain] = .ok init ∧
      [[[.bool false, .null]], [[.bool true, .null]]].mapM fresh.putAll = .ok outs ∧
      init.mergeAll (outs.map .meetAggr) = .ok (store, admitted) ∧
      fresh.layout.isSuffix = false ∧
      ∀ rows ∈ [[[.bool false, .null]], [[.bool true, .null]]], ∀ t ∈ rows,
        fresh.layout.projectKey t = [.null] :=
    ⟨_, _, _, _, _, rfl, rfl, rfl, rfl, rfl, by decide⟩
  obtain ⟨fresh, init, store, outs, admitted, hfresh, hinit, houts, hmerge, hlayout, hnull⟩ := hrun
  have hshallow : Tuple.Shallow [.null] := by
    intro v hv
    rw [mem_singleton.mp hv]
    exact Nat.zero_le _
  obtain ⟨groups, -, -, hkeys, -, -, -, hscan⟩ :=
    meet_store_refines_map hfresh hinit (by decide) houts hmerge
  refine ⟨fresh, store, groups, _, hfresh, hlayout, hkeys, hscan (.inr fun e he => ?_)⟩
  obtain ⟨rows, hrows, t, ht, hkey⟩ := (hkeys e.1).mp (mem_map_of_mem he)
  rwa [← hkey, hnull rows hrows t ht]

/-- A group keeps the list it was first given when an equal list comes in a later epoch, though
folding the two gives the set of their elements: the update rewrites its left side without
reporting a change. -/
theorem stored_ne_folded :
    ∃ (fresh : MeetAggrStore) (init store : EpochStore) (outs : List MeetAggrStore)
      (levels : LevelStack MeetLevel),
      new [.plain, .aggregated ⟨"intersection", .meet⟩ []] = .ok fresh ∧
      newMeet [.plain, .aggregated ⟨"intersection", .meet⟩ []] = .ok init ∧
      [[[.null, .list [.bool true]]], [[.null, .list [.bool true]]]].mapM fresh.putAll =
        .ok outs ∧
      init.mergeAll (outs.map .meetAggr) = .ok (store, [1, 0]) ∧
      store.kind = .meet ⟨fresh.layout, fresh.meets⟩ levels ∧
      findGroup levels.iter (.encode [.null]) = some [.value (.list [.bool true])] ∧
      foldAccums fresh.meets (accumsOf outs (.encode [.null])) =
        .ok (some (false, [.value (.set (.ofList [.bool true] compare))])) ∧
      DataValue.list [.bool true] ≠ .set (.ofList [.bool true] compare) := by
  have hrun : ∃ (fresh : MeetAggrStore) (init store : EpochStore) (outs : List MeetAggrStore),
      new [.plain, .aggregated ⟨"intersection", .meet⟩ []] = .ok fresh ∧
      newMeet [.plain, .aggregated ⟨"intersection", .meet⟩ []] = .ok init ∧
      [[[.null, .list [.bool true]]], [[.null, .list [.bool true]]]].mapM fresh.putAll =
        .ok outs ∧
      init.mergeAll (outs.map .meetAggr) = .ok (store, [1, 0]) ∧
      init.kind = .meet ⟨fresh.layout, fresh.meets⟩ (.singleton ⟨[]⟩) ∧
      storedOf fresh.meets outs (.encode [.null]) = some [.value (.list [.bool true])] ∧
      foldAccums fresh.meets (accumsOf outs (.encode [.null])) =
        .ok (some (false, [.value (.set (.ofList [.bool true] compare))])) :=
    ⟨_, _, _, _, rfl, rfl, rfl, rfl, rfl, rfl, rfl⟩
  obtain ⟨fresh, init, store, outs, hfresh, hinit, houts, hmerge, hkind, hstored, hfold⟩ := hrun
  obtain ⟨levels, hlevels, h⟩ := mergeAll hkind (meetMerged_singleton _) hmerge
  refine ⟨fresh, init, store, outs, levels, hfresh, hinit, houts, hmerge, hlevels,
    (h.findGroup_eq _).trans hstored, hfold, fun heq => ?_⟩
  cases congrArg Subtype.val heq

end Kyzo

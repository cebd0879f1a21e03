import Kyzo.Exec.RelJoins

/-!
# Running a tree lists its rows

The run of a well-formed tree succeeds exactly when no expression fails where it is evaluated, and
then lists the rows of the tree.  The one reservation is the bounds of probes: they must not leave
out a row that the filters let pass.
-/

namespace Kyzo

open List RelAlgebra Enumerates PlanError Kyzo.Expr List.Subset

namespace RelAlgebra

variable {lib : Library} {rd : PlanReads}

section

variable (lib rd)

/-- No probe leaves out, by the bounds it draws from its filters, a row that these let pass and that
goes with a row of the left side. -/
def Spared : RelAlgebra → Prop
  | .fixed _ _ _ | .scan _ _ _ | .derived _ _ => True
  | .join left right joiner _ =>
    left.Spared ∧ right.Spared ∧ (left.isUnit = true ∨
      match probedScan right joiner with
      | some (source, bindings, filters) =>
        ∀ l r, left.Rows lib rd l → right.Rows lib rd r →
          Agree (comparedKeys right joiner) left.bindingsAfterEliminate bindings l r →
          InScan (source.boundColumns bindings joiner.rightKeys.length) filters
            joiner.rightKeys.length r
      | none => True)
  | .negJoin left _ _ _ => left.Spared
  | .reorder relation _ => relation.Spared
  | .filter parent _ _ => parent.Spared
  | .unification parent _ _ _ _ => parent.Spared
  | .search parent _ => parent.Spared

end

/-! ## Resolution -/

/-- The tree is a scan that carries filters. -/
def isScan : RelAlgebra → Bool
  | .scan .. => true
  | _ => false

variable {t t' : RelAlgebra}

variable {frame : List Symbol}

/-- Expressions that read only the frame are resolved against it. -/
lemma exists_fillExprs {exprs : List Expr} (h : ∀ e ∈ exprs, e.ReadsOnly frame) :
    ∃ exprs', fillExprs frame exprs = .ok exprs' := by
  obtain ⟨exprs', hexprs⟩ := mapM_exists
    fun e he => by
      obtain ⟨vars, hvars, hsub⟩ := h e he
      exact exists_fill e hvars hsub
  exact ⟨exprs', fillExprs_eq_ok.mpr hexprs⟩

lemma exists_fillExpr {e : Expr} (h : e.ReadsOnly frame) :
    ∃ e', (e.fillBindingIndices frame).mapError fill = .ok e' := by
  obtain ⟨vars, hvars, hsub⟩ := h
  obtain ⟨e', he⟩ := exists_fill e hvars hsub
  exact ⟨e', mapError_eq_ok.mpr he⟩

lemma exists_fillFilter {filter : Option Expr} (h : ∀ f, filter = some f → f.ReadsOnly frame) :
    ∃ filter', filter.mapM (fun f => (f.fillBindingIndices frame).mapError fill) = .ok filter' := by
  cases filter with
  | none => exact ⟨none, rfl⟩
  | some f =>
    obtain ⟨f', hf⟩ := exists_fillExpr (h f rfl)
    exact ⟨some f', by simp [hf]⟩

/-- Running the tree `t'` lists the rows of `t`. -/
abbrev Lists (lib : Library) (rd : PlanReads) (t t' : RelAlgebra) : Prop :=
  Enumerates (t'.iter lib rd) (t.Completes lib rd) (t.Rows lib rd)

/-- `t'` is `t` with its expressions resolved: it has the columns and the shape of `t`, and running
it lists the rows of `t`. -/
structure Resolved (lib : Library) (rd : PlanReads) (t t' : RelAlgebra) : Prop where
  fill : t.fillBindingIndices = .ok t'
  bindings : t'.bindingsAfterEliminate = t.bindingsAfterEliminate
  isUnit : t'.isUnit = t.isUnit
  isScan : t'.isScan = t.isScan
  lists : Lists lib rd t t'

/-! ## Joins -/

section

variable {left left' right right' : RelAlgebra} {joiner : Joiner} {toEliminate : List Symbol}

/-- A join compares some of the keys it names. -/
lemma comparedKeys_subset (right : RelAlgebra) (j : Joiner) :
    comparedKeys right j ⊆ j.leftKeys.zip j.rightKeys := by
  unfold comparedKeys
  split
  · split
    · unfold ScanSource.probedKeys
      split
      · exact filter_subset_self _
      · exact refl _
    · exact refl _
  · exact refl _

/-- The unit relation has one row, without columns. -/
lemma WellFormed.of_isUnit (lib : Library) (wf : left.WellFormed rd) (h : left.isUnit = true) :
    left.bindingsAfterEliminate = [] ∧ ∀ l, left.Rows lib rd l ↔ l = [] := by
  cases wf with
  | fixed width kept =>
    simp only [isUnit, Bool.and_eq_true, List.isEmpty_iff, beq_iff_eq] at h
    obtain ⟨rfl, hlen⟩ := h
    obtain ⟨row, rfl⟩ := List.length_eq_one_iff.mp hlen
    obtain rfl := List.length_eq_zero_iff.mp (width row (.head _))
    exact ⟨rfl, fun l => List.mem_singleton⟩
  | _ => cases h

lemma probed_eq_none {indices : List (ℕ × ℕ)} (h : right.isScan = false) :
    right.probed indices = none := by
  cases right with
  | scan => cases h
  | _ => rfl

/-- The keys of a well-formed join have positions. -/
lemma exists_joinIndices (pairs : joiner.leftKeys.length = joiner.rightKeys.length)
    {leftNames rightNames : List Symbol} (hleft : joiner.leftKeys ⊆ leftNames)
    (hright : joiner.rightKeys ⊆ rightNames) :
    (joiner.leftKeys.zip joiner.rightKeys).map Prod.snd = joiner.rightKeys ∧
      ∃ indices, joiner.joinIndices leftNames rightNames = .ok indices ∧
        KeyIndices leftNames rightNames (joiner.leftKeys.zip joiner.rightKeys) indices ∧
        indices.length = joiner.rightKeys.length := by
  obtain ⟨indices, hindices⟩ := exists_keyIndices leftNames rightNames
    (joiner.leftKeys.zip joiner.rightKeys) fun k hk =>
      ⟨hleft (of_mem_zip hk).1, hright (of_mem_zip hk).2⟩
  refine ⟨map_snd_zip pairs.ge, indices, joinIndices_eq_ok.mpr hindices, hindices, ?_⟩
  rw [← hindices.length_eq, length_zip, pairs, min_self]

section

variable (hl : Resolved lib rd left left') (hr : Resolved lib rd right right')
include hl hr

/-- A join with the unit relation runs its right side. -/
lemma iter_unit_enumerates (hleft : left.WellFormed rd) (hunit : left.isUnit = true)
    (hkeys : joiner.leftKeys ⊆ left.bindingsAfterEliminate) :
    Lists lib rd (join left right joiner toEliminate) (join left' right' joiner toEliminate) := by
  obtain ⟨hnames, hrows⟩ := hleft.of_isUnit lib hunit
  rw [Lists, iter, Completes, hl.bindings, hr.bindings, hl.isUnit, if_pos hunit, if_pos hunit]
  refine (hr.lists.map _).congr Iff.rfl fun _ row => ?_
  have hempty : comparedKeys right joiner = [] := by
    have hzip : joiner.leftKeys.zip joiner.rightKeys = [] := by
      rw [hnames] at hkeys
      rw [eq_nil_of_subset_nil hkeys, zip_nil_left]
    exact eq_nil_of_subset_nil (hzip ▸ comparedKeys_subset right joiner)
  constructor
  · rintro ⟨r, hr, rfl⟩
    exact ⟨[], r, (hrows []).mpr rfl, hr, by simp [Agree, hempty], rfl⟩
  · rintro ⟨l, r, hl, hr, -, rfl⟩
    obtain rfl := (hrows l).mp hl
    exact ⟨r, hr, rfl⟩

/-- The run of a join that collects its right side. -/
lemma iter_materialized_enumerates (hunit : left.isUnit ≠ true)
    (wf : (join left right joiner toEliminate).WellFormed rd)
    (hscan : probedScan right joiner = none)
    (hprobed : ∀ indices, KeyIndices left.bindingsAfterEliminate right.bindingsAfterEliminate
      (joiner.leftKeys.zip joiner.rightKeys) indices → right'.probed indices = none)
    (hcompared : comparedKeys right joiner = joiner.leftKeys.zip joiner.rightKeys) :
    Lists lib rd (join left right joiner toEliminate) (join left' right' joiner toEliminate) := by
  cases wf with
  | join hleft hright pairs left_keys right_keys nodup disjoint =>
    obtain ⟨hsnd, indices, hjoin, hindices, -⟩ := exists_joinIndices pairs left_keys right_keys
    rw [Lists, iter, Completes, hl.bindings, hr.bindings, hl.isUnit,
      if_neg hunit, if_neg hunit, hjoin, ok_bind, hprobed indices hindices, hscan]
    refine (hr.lists.bind (left.Completes lib rd) fun rights hrights => ?_).congr and_comm
      fun _ _ => Iff.rfl
    refine (hl.lists.bind True fun lefts hlefts => ?_).congr (and_iff_left trivial)
      fun _ _ => Iff.rfl
    refine ((materializedJoin_enumerates hindices (by rw [hsnd]; exact nodup)
      (fun l hl => ((hlefts l).mp hl).length_eq hleft)
      fun r hr => ((hrights r).mp hr).length_eq hright).map _).congr Iff.rfl fun _ row => ?_
    simp only [hlefts, hrights]
    constructor
    · rintro ⟨_, ⟨l, hl, r, hr, hag, rfl⟩, rfl⟩
      exact ⟨l, r, hl, hr, hcompared ▸ hag, rfl⟩
    · rintro ⟨l, r, hl, hr, hag, rfl⟩
      exact ⟨l ++ r, ⟨l, hl, r, hr, hcompared ▸ hag, rfl⟩, rfl⟩

omit hr in
/-- The run of a join that probes its right side for each row of the left. -/
lemma iter_probed_enumerates {source : ScanSource} {bindings : List Symbol}
    {filters filters' : List Expr} (hunit : left.isUnit ≠ true)
    (wf : (join left (.scan source bindings filters) joiner toEliminate).WellFormed rd)
    (spared : ∀ l r, left.Rows lib rd l → (scan source bindings filters).Rows lib rd r →
      Agree (comparedKeys (.scan source bindings filters) joiner) left.bindingsAfterEliminate
        bindings
        l r → InScan (source.boundColumns bindings joiner.rightKeys.length) filters
          joiner.rightKeys.length r)
    (hfill : fillExprs bindings filters = .ok filters') (honPrefix : joiner.OnPrefix bindings) :
    Lists lib rd (join left (.scan source bindings filters) joiner toEliminate)
      (join left' (.scan source bindings filters') joiner toEliminate) := by
  have hnames : ∀ fs, (scan source bindings fs).bindingsAfterEliminate = bindings :=
    fun _ => shed_nil
  cases wf with
  | join hleft hright pairs left_keys right_keys nodup disjoint =>
  cases hright with
  | scan hnodup width reads =>
    rw [hnames] at right_keys
    obtain ⟨hsnd, indices, hjoin, hindices, hlen⟩ := exists_joinIndices pairs left_keys right_keys
    have hfront : joinIsPrefix indices = true := by
      rw [hindices.joinIsPrefix_iff hnodup, hsnd, hindices.length_eq, hlen]
      exact honPrefix
    have hprobedScan : probedScan (.scan source bindings filters) joiner =
        some (source, bindings, filters) := if_pos honPrefix
    have hcompared : comparedKeys (.scan source bindings filters) joiner =
        source.probedKeys bindings (joiner.leftKeys.zip joiner.rightKeys) := if_pos honPrefix
    have hprobed : (scan source bindings filters').probed indices =
        some (source, bindings, filters') := if_pos hfront
    rw [Lists, iter, Completes, hl.bindings, hl.isUnit, if_neg hunit, if_neg hunit,
      hnames, hjoin, ok_bind, hprobed, hprobedScan, hcompared]
    dsimp only
    cases hrows : rd.scanRows source with
    | error e =>
      refine error e ?_
      rintro ⟨-, ⟨rows, h⟩, -⟩
      cases h
    | ok rows =>
      have hscans : ∀ r, rd.Scans source r ↔ r ∈ rows := fun r => PlanReads.scans_iff hrows
      have hwidth : ∀ r ∈ rows, r.length = bindings.length := fun r hr =>
        width r ((hscans r).mpr hr)
      -- The rows that go with one left row.
      have hstep : ∀ l, left.Rows lib rd l → Enumerates (do
          let found ← probe source bindings filters' indices rows l
          return (← passing lib filters' found).map (l ++ ·))
          (∀ r, r ∈ rows ∧ Agree (source.probedKeys bindings (joiner.leftKeys.zip joiner.rightKeys))
              left.bindingsAfterEliminate bindings l r ∧
              InScan (source.boundColumns bindings joiner.rightKeys.length) filters
                joiner.rightKeys.length r → Decides lib bindings filters r)
          (fun row => ∃ r, r ∈ rows ∧
            Agree (source.probedKeys bindings (joiner.leftKeys.zip joiner.rightKeys))
              left.bindingsAfterEliminate bindings l r ∧
            Passes lib bindings filters r ∧ l ++ r = row) := by
        intro l hl
        have hprobe := probe_enumerates filters' hrows hnodup hwidth hindices hfront
          (hl.length_eq hleft)
        have hscan : ∀ columns n r, InScan columns filters' n r ↔ InScan columns filters n r := by
          intro columns n r
          rw [InScan, InScan, scanBounds_fill hfill]
        simp only [hlen, hscan] at hprobe
        refine (hprobe.bind _ fun found hfound => ((passing_enumerates hfill fun r hr =>
          hwidth r ((hfound r).mp hr).1).map (l ++ ·)).congr ?_ ?_).congr
          (and_iff_right trivial) fun _ _ => Iff.rfl
        · simp [hfound]
        · intro _ row
          constructor
          · rintro ⟨r, ⟨hr, hpass⟩, rfl⟩
            obtain ⟨hmem, hag, -⟩ := (hfound r).mp hr
            exact ⟨r, hmem, hag, hpass, rfl⟩
          · rintro ⟨r, hmem, hag, hpass, rfl⟩
            have hin := spared l r hl ⟨(hscans r).mpr hmem, hpass⟩ (hcompared ▸ hag)
            exact ⟨r, ⟨(hfound r).mpr ⟨hmem, hag, hin⟩, hpass⟩, rfl⟩
      have hjoined := (hl.lists.collect hstep).map (eliminateFromTuple toEliminate
        (left.bindingsAfterEliminate ++ bindings))
      simp only [bind_assoc] at hjoined
      refine hjoined.congr (and_congr_right fun _ => ?_) fun _ row => ?_
      · simp only [hscans, and_imp]
        exact ⟨fun h => ⟨⟨rows, rfl⟩, fun l r hl => h l hl r⟩, fun h l hl r => h.2 l r hl⟩
      · simp only [Rows, hcompared, hnames, hscans]
        constructor
        · rintro ⟨_, ⟨l, hl, r, hr, hag, hpass, rfl⟩, rfl⟩
          exact ⟨l, r, hl, ⟨hr, hpass⟩, hag, rfl⟩
        · rintro ⟨l, r, hl, ⟨hr, hpass⟩, hag, rfl⟩
          exact ⟨l ++ r, ⟨l, hl, r, hr, hag, hpass, rfl⟩, rfl⟩

/-- **A join lists the pairs of rows that agree on its columns**, by whichever strategy. -/
theorem iter_join_enumerates (wf : (join left right joiner toEliminate).WellFormed rd)
    (spared : (join left right joiner toEliminate).Spared lib rd) :
    Lists lib rd (join left right joiner toEliminate) (join left' right' joiner toEliminate) := by
  by_cases hunit : left.isUnit = true
  · cases wf with
    | join hleft _ _ left_keys => exact iter_unit_enumerates hl hr hleft hunit left_keys
  cases right with
  | scan source bindings filters =>
    obtain ⟨filters', hfill, h⟩ := bind_ok hr.fill
    cases h
    by_cases hfront : joiner.OnPrefix bindings
    · have hspared := spared.2.2.resolve_left hunit
      simp only [probedScan, if_pos hfront] at hspared
      exact iter_probed_enumerates hl hunit wf hspared hfill hfront
    · refine iter_materialized_enumerates hl hr hunit wf (if_neg hfront) ?_ (if_neg hfront)
      intro indices hindices
      cases wf with
      | join _ hright pairs left_keys right_keys =>
      cases hright with
      | scan hnodup width reads =>
        have hnames : (scan source bindings filters).bindingsAfterEliminate = bindings :=
          shed_nil
        rw [hnames] at hindices right_keys
        refine if_neg fun h => hfront ?_
        rw [hindices.joinIsPrefix_iff hnodup, map_snd_zip pairs.ge, length_zip, pairs,
          min_self] at h
        exact h
  | _ =>
    exact iter_materialized_enumerates hl hr hunit wf rfl (fun _ _ => probed_eq_none hr.isScan) rfl

end

end

/-! ## Steps on one row -/

variable {names : List Symbol} {l : Tuple}

/-- A reordering reads the columns by name. -/
lemma project_named {newOrder : List Symbol} {indices : List ℕ} {message : String}
    (h : newOrder.mapM (fun name => frameIndex names name message) = .ok indices)
    (hlen : l.length = names.length) (row : Tuple) : project l indices = .ok row ↔
      List.Forall₂ (fun s v => rowEnv names l s = some v) newOrder row := by
  have hcols : newOrder.map (rowEnv names l) = indices.map (l[·]?) := by
    refine forall₂_eq_map.mp ((forall₂_eq_map.mpr (mapM_eq_ok_iff.mp h)).imp fun name i hi => ?_)
    rw [rowEnv_eq hlen, frameIndex_eq_ok.mp hi, Option.bind_some]
  rw [project_eq_ok, gather_eq_some, ← hcols, forall₂_eq_map]

/-- A unification appends the values of its expression. -/
lemma unify_enumerates {expr expr' : Expr} {kind : UnificationKind}
    {toEliminate names' : List Symbol} (hlen : l.length = names.length)
    (hfill : expr.fillBindingIndices names = .ok expr') : Enumerates (do
      let val ← (expr'.evalExpr lib l).mapError eval
      let vals ← match kind with
        | .single => pure [val]
        | .spread =>
          match val.getSlice with
          | some items => pure items
          | none => throw .badSpreadUnification
      return vals.map fun v => eliminateFromTuple toEliminate names' (l ++ [v]))
      (∃ val items, expr.evalIn lib (rowEnv names l) = .ok val ∧ kind.items val = some items)
      (fun row => ∃ val items v, expr.evalIn lib (rowEnv names l) = .ok val ∧
        kind.items val = some items ∧ v ∈ items ∧
        eliminateFromTuple toEliminate names' (l ++ [v]) = row) := by
  let spread (val : DataValue) : Except PlanError (List DataValue) :=
    (kind.items val).elim (.error .badSpreadUnification) .ok
  have hitems : ∀ val items, spread val = .ok items ↔ kind.items val = some items := by
    intro val items
    simp only [spread]
    cases kind.items val <;> simp
  have h := value ((expr.evalIn lib (rowEnv names l)).mapError eval) spread fun v =>
    eliminateFromTuple toEliminate names' (l ++ [v])
  simp only [mapError_eq_ok, hitems] at h
  rw [evalExpr_fill hlen hfill]
  convert h using 3 with val
  cases kind with
  | single => rfl
  | spread =>
    simp only [spread, UnificationKind.items]
    cases val.getSlice <;> rfl

/-- A search appends the hits of its query. -/
lemma search_enumerates {own : List Symbol} {query query' : Expr}
    (hlen : l.length = names.length) (hfill : query.fillBindingIndices names = .ok query') :
    Enumerates (do
      let val ← (query'.evalExpr lib l).mapError eval
      return (← rd.search own val).map (l ++ ·))
      (∃ val hits, query.evalIn lib (rowEnv names l) = .ok val ∧ rd.search own val = .ok hits)
      (fun row => ∃ val hits hit, query.evalIn lib (rowEnv names l) = .ok val ∧
        rd.search own val = .ok hits ∧ hit ∈ hits ∧ l ++ hit = row) := by
  have h := value ((query'.evalExpr lib l).mapError eval) (rd.search own) (l ++ ·)
  simpa only [mapError_eq_ok, evalExpr_fill hlen hfill] using h

/-! ## The tree -/

/-- **A well-formed tree can be resolved**, and running the resolved tree lists its rows. -/
theorem WellFormed.exists_resolved (wf : t.WellFormed rd) (spared : t.Spared lib rd) :
    ∃ t', Resolved lib rd t t' := by
  induction wf with
  | fixed | derived => exact ⟨_, rfl, rfl, rfl, rfl, ok _⟩
  | @scan source bindings filters nodup width reads =>
    obtain ⟨filters', hfilters⟩ := exists_fillExprs reads
    refine ⟨_, bind_eq_ok.mpr ⟨filters', hfilters, rfl⟩, rfl, rfl, rfl, ?_⟩
    rw [Lists, iter]
    cases hrows : rd.scanRows source with
    | error e =>
      refine error e ?_
      rintro ⟨⟨rows, h⟩, -⟩
      rw [hrows] at h
      cases h
    | ok rows =>
      have hscans : ∀ r, rd.Scans source r ↔ r ∈ rows := fun r => PlanReads.scans_iff hrows
      rw [ok_bind, refine_eq_passing]
      refine (passing_enumerates hfilters fun r hr =>
        width r ((hscans r).mpr hr)).congr ?_ fun _ r => ?_
      · rw [Completes]
        simp only [hscans]
        exact (and_iff_right ⟨rows, hrows⟩).symm
      · rw [Rows, hscans]
  | @join left right joiner toEliminate hleft hright pairs left_keys right_keys nodup disjoint ihl
      ihr =>
    obtain ⟨left', hl⟩ := ihl spared.1
    obtain ⟨right', hr⟩ := ihr spared.2.1
    refine ⟨_, bind_eq_ok.mpr ⟨left', hl.fill, bind_eq_ok.mpr ⟨right', hr.fill, rfl⟩⟩,
      congrArg₂ (fun ls rs => shed toEliminate (ls ++ rs)) hl.bindings hr.bindings, rfl, rfl, ?_⟩
    exact iter_join_enumerates hl hr (.join hleft hright pairs left_keys right_keys nodup disjoint)
      spared
  | @negJoin left right joiner toEliminate hleft right_width right_nodup pairs left_keys right_keys
      ih =>
    obtain ⟨left', hl⟩ := ih spared
    refine ⟨_, bind_eq_ok.mpr ⟨left', hl.fill, rfl⟩, congrArg (shed toEliminate) hl.bindings, rfl,
      rfl, ?_⟩
    obtain ⟨-, indices, hjoin, hindices, -⟩ := exists_joinIndices pairs left_keys right_keys
    rw [Lists, iter, hl.bindings, hjoin, ok_bind]
    by_cases hread : rd.Readable right
    · obtain ⟨test, htest, hspec⟩ := hasMatch_spec hindices right_width hread
      rw [htest]
      have hstep : ∀ l, left.Rows lib rd l → Enumerates (do
          if ← test l then return []
          else return [eliminateFromTuple toEliminate left.bindingsAfterEliminate l]) True
          (fun row => (¬ ∃ r, rd.Totals right r ∧ Agree (joiner.leftKeys.zip joiner.rightKeys)
            left.bindingsAfterEliminate right.bindings l r) ∧
            eliminateFromTuple toEliminate left.bindingsAfterEliminate l = row) := by
        intro l hl
        obtain ⟨b, hb, hiff⟩ := hspec l (hl.length_eq hleft)
        rw [hb]
        cases b with
        | true =>
          exact (ok []).congr Iff.rfl fun _ row =>
            iff_of_false not_mem_nil fun h => h.1 (hiff.mp rfl)
        | false =>
          refine (ok [_]).congr Iff.rfl fun _ row => ?_
          rw [mem_singleton, eq_comm]
          exact (and_iff_right fun h => Bool.false_ne_true (hiff.mpr h)).symm
      refine (hl.lists.collect hstep).congr ?_ fun _ _ => Iff.rfl
      rw [Completes, and_iff_left hread]
      exact and_iff_left fun _ _ => trivial
    · obtain ⟨e, he⟩ := hasMatch_unreadable indices hread
      rw [he]
      exact error e fun h => hread h.2
  | @reorder relation newOrder hrelation columns ih =>
    obtain ⟨relation', hr⟩ := ih spared
    refine ⟨_, bind_eq_ok.mpr ⟨relation', hr.fill, rfl⟩, rfl, rfl, rfl, ?_⟩
    obtain ⟨indices, hindices⟩ := mapM_exists
      (f := fun name => frameIndex relation.bindingsAfterEliminate name
        "reorder columns are not a permutation of the parent's") fun name hname => by
        obtain ⟨i, hi⟩ := exists_position.mpr (columns hname)
        exact ⟨i, frameIndex_eq_ok.mpr hi⟩
    rw [Lists, iter, hr.bindings, hindices]
    refine (hr.lists.mapM fun l hl => ?_).congr Iff.rfl fun _ row => ?_
    · refine exists_project _ _ fun c hc => ?_
      obtain ⟨name, -, hname⟩ := (mapM_mem hindices).2 c hc
      rw [hl.length_eq hrelation]
      exact position_lt (frameIndex_eq_ok.mp hname)
    · exact exists_congr fun l => and_congr_right fun hl =>
        project_named hindices (hl.length_eq hrelation) row
  | @filter parent filters toEliminate hparent reads ih =>
    obtain ⟨parent', hp⟩ := ih spared
    obtain ⟨filters', hfilters⟩ := exists_fillExprs reads
    refine ⟨_, bind_eq_ok.mpr ⟨parent', hp.fill, bind_eq_ok.mpr ⟨filters', hfilters, rfl⟩⟩,
      congrArg (shed toEliminate) hp.bindings, rfl, rfl, ?_⟩
    rw [Lists, iter, hp.bindings]
    refine hp.lists.bind _ fun rows hrows => ((passing_enumerates hfilters fun r hr =>
      ((hrows r).mp hr).length_eq hparent).map _).congr ?_ fun _ row => ?_
    · simp [hrows]
    · simp [hrows, Rows, and_assoc]
  | @unification parent binding expr kind toEliminate hparent reads ih =>
    obtain ⟨parent', hp⟩ := ih spared
    obtain ⟨expr', hexpr⟩ := exists_fillExpr reads
    refine ⟨_, bind_eq_ok.mpr ⟨parent', hp.fill, bind_eq_ok.mpr ⟨expr', hexpr, rfl⟩⟩,
      congrArg (fun ls => shed toEliminate (ls ++ [binding])) hp.bindings, rfl, rfl, ?_⟩
    rw [Lists, iter, hp.bindings]
    refine (hp.lists.collect fun l hl => unify_enumerates (hl.length_eq hparent)
      (mapError_eq_ok.mp hexpr)).congr Iff.rfl fun _ row => ?_
    simp only [Rows, exists_and_left]
  | @search parent atom hparent reads filter_reads width ih =>
    obtain ⟨parent', hp⟩ := ih spared
    obtain ⟨query', hquery⟩ := exists_fillExpr reads
    obtain ⟨filter', hfilter⟩ := exists_fillFilter filter_reads
    refine ⟨_, bind_eq_ok.mpr ⟨parent', hp.fill, bind_eq_ok.mpr ⟨query', hquery,
      bind_eq_ok.mpr ⟨filter', hfilter, rfl⟩⟩⟩,
      congrArg (fun ls => shed [] (ls ++ atom.ownBindings)) hp.bindings, rfl, rfl, ?_⟩
    refine (hp.lists.collect fun l hl => search_enumerates (hl.length_eq hparent)
      (mapError_eq_ok.mp hquery)).congr Iff.rfl fun _ row => ?_
    simp only [Rows, exists_and_left]

/-- **Running a tree** lists its rows, or fails when one of its expressions does. -/
theorem run_enumerates {t : RelAlgebra} (wf : t.WellFormed rd) (spared : t.Spared lib rd) :
    Enumerates (t.run lib rd) (t.Completes lib rd) (t.Rows lib rd) := by
  obtain ⟨t', h⟩ := wf.exists_resolved spared
  rw [run, h.fill]
  exact h.lists

end RelAlgebra

end Kyzo

import Kyzo.Plan.Components
import Kyzo.Plan.Kahn
import Kyzo.Plan.Stratify

/-!
# The refusal and the condensation

`verify_no_cycle` passes when no poisoned edge stays inside a component, and
`make_scc_reduced_graph` has an edge between two components exactly where the graph has one between
their nodes, poisoned if one of those is.  The reduced graph has no cycle.
-/

namespace Kyzo

open List Std TreeMap

variable {g : StratifiedGraph Symbol} {comps : List (List Symbol)}

/-! ## The refusal -/

lemma verifyNoCycle_eq_ok : verifyNoCycle g comps = .ok () ↔
      ∀ k v i, InGroup comps k i → InGroup comps v i → ¬LabelledEdge g k v true := by
  simp only [verifyNoCycle, forM_eq_ok, Prod.forall, mem_toList_iff_getElem?_eq_some]
  constructor
  · rintro h k v i ⟨scc, hscc, hk⟩ ⟨scc', hscc', hv⟩ ⟨tos, htos, hedge⟩
    cases hscc.symm.trans hscc'
    have hpass := h k tos htos scc (mem_of_getElem? hscc)
    rw [if_pos hk] at hpass
    have hone := forM_eq_ok.mp hpass (v, true)
      (mem_toList_iff_getElem?_eq_some.mpr hedge)
    simp only [true_and, if_pos hv] at hone
    cases hone
  · intro h k tos htos scc hscc
    obtain ⟨i, hi⟩ := getElem?_of_mem hscc
    split_ifs with hk
    · refine forM_eq_ok.mpr fun (v, b) hmem => if_neg fun ⟨hb, hv⟩ => ?_
      have hedge := mem_toList_iff_getElem?_eq_some.mp hmem
      exact h k v i ⟨scc, hi, hk⟩ ⟨scc, hi, hv⟩ ⟨tos, htos, hb ▸ hedge⟩
    · rfl

lemma verifyNoCycle_error {e : StratifyError} (h : verifyNoCycle g comps = .error e) :
    ∃ v scc, e = .unStratifiable v scc := by
  obtain ⟨⟨k, tos⟩, -, hrow⟩ := forM_eq_error h
  obtain ⟨scc, -, hscc⟩ := forM_eq_error hrow
  split_ifs at hscc with hk
  obtain ⟨⟨v, b⟩, -, hedge⟩ := forM_eq_error hscc
  simp only at hedge
  split_ifs at hedge with hv
  exact ⟨v, scc, (Except.error.inj hedge).symm⟩

/-! ## The edges of a component -/

/-- An edge that is poisoned if `q` is set. -/
def HasEdge (tos : TreeMap ℕ Bool) (j : ℕ) (q : Bool) : Prop :=
  ∃ b, tos[j]? = some b ∧ (q = true → b = true)

variable {i j : ℕ} {q : Bool}

lemma hasEdge_insert {tos : TreeMap ℕ Bool} {b : Bool} : HasEdge (tos.insert i b) j q ↔
      (i = j ∧ (q = true → b = true)) ∨ (i ≠ j ∧ HasEdge tos j q) := by
  simp only [HasEdge, TreeMap.getElem?_insert, LawfulEqOrd.compare_eq_iff_eq]
  by_cases hij : i = j
  · simp [hij]
  · simp [hij]

/-- An edge is added, or its flag raised. -/
def mergeEdge (cur : TreeMap ℕ Bool) (j : ℕ) (poisoned : Bool) : TreeMap ℕ Bool :=
  match cur[j]? with
  | none => cur.insert j poisoned
  | some old => cur.insert j (old || poisoned)

lemma hasEdge_mergeEdge {cur : TreeMap ℕ Bool} {poisoned : Bool} :
    HasEdge (mergeEdge cur i poisoned) j q ↔
      HasEdge cur j q ∨ (i = j ∧ (q = true → poisoned = true)) := by
  rw [mergeEdge]
  rcases hold : cur[i]? with _ | old
  · rw [hasEdge_insert]
    constructor
    · rintro (hnew | ⟨-, hcur⟩)
      · exact .inr hnew
      · exact .inl hcur
    · rintro (hcur | hnew)
      · refine .inr ⟨?_, hcur⟩
        rintro rfl
        obtain ⟨b, hb, -⟩ := hcur
        cases hold.symm.trans hb
      · exact .inl hnew
  · rw [hasEdge_insert]
    by_cases hij : i = j
    · subst hij
      simp only [HasEdge, hold]
      cases q <;> simp
    · simp [hij]

variable {indices : TreeMap Symbol ℕ} {fromIdx : ℕ}

lemma hasEdge_reduceEdges (tos : List (Symbol × Bool)) (cur : TreeMap ℕ Bool) :
    HasEdge (reduceEdges indices fromIdx cur tos) j q ↔
      HasEdge cur j q ∨ fromIdx ≠ j ∧
        ∃ tgt b, (tgt, b) ∈ tos ∧ indices[tgt]? = some j ∧ (q = true → b = true) := by
  induction tos generalizing cur with
  | nil => simp [reduceEdges]
  | cons edge tos ih =>
    obtain ⟨tgt, poisoned⟩ := edge
    have hstep : reduceEdges indices fromIdx cur ((tgt, poisoned) :: tos) =
        reduceEdges indices fromIdx (reduceEdges indices fromIdx cur [(tgt, poisoned)]) tos := rfl
    rw [hstep, ih]
    rcases hidx : indices[tgt]? with _ | toIdx
    · have hedge : reduceEdges indices fromIdx cur [(tgt, poisoned)] = cur := by
        simp [reduceEdges, hidx]
      simp [hedge, or_and_right, exists_or, hidx]
    · have hedge : reduceEdges indices fromIdx cur [(tgt, poisoned)] =
          if fromIdx = toIdx then cur else mergeEdge cur toIdx poisoned := by
        simp only [reduceEdges, foldl_cons, foldl_nil, hidx]
        rfl
      rw [hedge]
      by_cases hself : fromIdx = toIdx
      · -- An edge inside the component is left out.
        subst hself
        simp only [if_true, mem_cons, Prod.mk.injEq, or_and_right, exists_or]
        grind
      · simp only [if_neg hself, hasEdge_mergeEdge, mem_cons, Prod.mk.injEq, or_and_right,
          exists_or]
        grind

/-! ## The reduced graph -/

/-- An edge of a graph that is poisoned if `q` is set. -/
def GraphEdge {T : Type} [Ord T] (g : StratifiedGraph T) (i j : T) (q : Bool) : Prop :=
  ∃ b, LabelledEdge g i j b ∧ (q = true → b = true)

lemma graphEdge_iff {r : StratifiedGraph ℕ} :
    GraphEdge r i j q ↔ HasEdge ((r.get? i).getD ∅) j q := by
  have hget : r.get? i = r[i]? := rfl
  rw [hget]
  simp only [GraphEdge, LabelledEdge, HasEdge]
  rcases r[i]? with _ | tos
  · simp
  · simp

/-- One node's edges go to its component. -/
def reduceRow (indices : TreeMap Symbol ℕ) (ret : StratifiedGraph ℕ)
    (row : Symbol × TreeMap Symbol Bool) : Except StratifyError (StratifiedGraph ℕ) :=
  match indices[row.1]? with
  | none => .error (.invariant .nodeInNoScc)
  | some fromIdx =>
    .ok (ret.insert fromIdx (reduceEdges indices fromIdx ((ret.get? fromIdx).getD ∅) row.2.toList))

lemma reduceRow_spec {fr : Symbol} (hfr : indices[fr]? = some fromIdx) (ret : StratifiedGraph ℕ)
    (tos : TreeMap Symbol Bool) : ∃ ret', reduceRow indices ret (fr, tos) = .ok ret' ∧
      (∀ i ∈ ret', i ∈ ret ∨ i = fromIdx) ∧
      ∀ i j q, GraphEdge ret' i j q ↔ GraphEdge ret i j q ∨ fromIdx = i ∧ i ≠ j ∧
        ∃ (tgt : Symbol) (b : Bool), tos[tgt]? = some b ∧ indices[tgt]? = some j ∧
          (q = true → b = true) := by
  refine ⟨_, by rw [reduceRow, hfr], ?_, ?_⟩
  · intro i hi
    rcases mem_insert.mp hi with heq | hi
    · exact .inr (LawfulEqOrd.compare_eq_iff_eq.mp heq).symm
    · exact .inl hi
  · intro i j q
    have hget : ∀ r : StratifiedGraph ℕ, r.get? i = r[i]? := fun _ => rfl
    rw [graphEdge_iff, graphEdge_iff, hget, TreeMap.getElem?_insert]
    by_cases heq : fromIdx = i
    · subst heq
      simp [ReflCmp.compare_self, Option.getD_some, hasEdge_reduceEdges,
        mem_toList_iff_getElem?_eq_some, true_and]
    · simp [heq, false_and, or_false]

/-- **Run.**  The rows reduce to the edges between the components of their nodes. -/
theorem foldlM_reduceRow (rows : List (Symbol × TreeMap Symbol Bool))
    (hrows : ∀ row ∈ rows, ∃ i, indices[row.1]? = some i) :
    ∃ reduced, rows.foldlM (reduceRow indices) ∅ = .ok reduced ∧
      (∀ i ∈ reduced, ∃ row ∈ rows, indices[row.1]? = some i) ∧
      ∀ i j q, GraphEdge reduced i j q ↔ i ≠ j ∧ ∃ fr tos, (fr, tos) ∈ rows ∧
        indices[fr]? = some i ∧
        ∃ (tgt : Symbol) (b : Bool), tos[tgt]? = some b ∧ indices[tgt]? = some j ∧
          (q = true → b = true) := by
  induction rows using reverseRecOn with
  | nil =>
    refine ⟨∅, rfl, fun i hi => absurd hi not_mem_emptyc, fun i j q => ?_⟩
    refine iff_of_false ?_ fun ⟨_, _, _, hmem, _⟩ => absurd hmem not_mem_nil
    rintro ⟨b, ⟨tos, htos, -⟩, -⟩
    simp at htos
  | append_singleton rows row ih =>
    obtain ⟨fr, tos⟩ := row
    obtain ⟨reduced, hreduced, hkeys, hedges⟩ :=
      ih fun row hrow => hrows row (mem_append_left _ hrow)
    obtain ⟨fromIdx, hfr⟩ := hrows (fr, tos) (mem_append_right _ (.head _))
    obtain ⟨ret, hret, hretKeys, hretEdges⟩ := reduceRow_spec hfr reduced tos
    refine ⟨ret, ?_, ?_, ?_⟩
    · rw [foldlM_append, hreduced]
      change (reduceRow indices reduced (fr, tos) >>= fun r => pure r) = _
      rw [hret]
      rfl
    · intro i hi
      rcases hretKeys i hi with hi | rfl
      · obtain ⟨row, hrow, hidx⟩ := hkeys i hi
        exact ⟨row, mem_append_left _ hrow, hidx⟩
      · exact ⟨(fr, tos), mem_append_right _ (.head _), hfr⟩
    · intro i j q
      rw [hretEdges, hedges]
      constructor
      · rintro (⟨hne, fr', tos', hmem, hedge⟩ | ⟨rfl, hne, hedge⟩)
        · exact ⟨hne, fr', tos', mem_append_left _ hmem, hedge⟩
        · exact ⟨hne, fr, tos, mem_append_right _ (.head _), hfr, hedge⟩
      · rintro ⟨hne, fr', tos', hmem, hidx, hedge⟩
        rcases mem_append.mp hmem with hmem | hmem
        · exact .inl ⟨hne, fr', tos', hmem, hidx, hedge⟩
        · cases mem_singleton.mp hmem
          exact .inr ⟨Option.some.inj (hfr.symm.trans hidx), hne, hedge⟩

/-- What the reduced graph is: between different components, the edges between their nodes. -/
structure Reduces (g : StratifiedGraph Symbol) (comps : List (List Symbol))
    (reduced : StratifiedGraph ℕ) : Prop where
  keys : ∀ i ∈ reduced, i < comps.length
  edge_iff : ∀ i j q, GraphEdge reduced i j q ↔ i ≠ j ∧ ∃ k v, InGroup comps k i ∧
    InGroup comps v j ∧ GraphEdge g k v q

lemma makeSccReducedGraph_spec (huniq : ∀ x i j, InGroup comps x i → InGroup comps x j → i = j)
    (hcover : ∀ k ∈ g, ∃ i, InGroup comps k i) :
    ∃ reduced, makeSccReducedGraph comps g = .ok (sccIndices comps, reduced) ∧
      Reduces g comps reduced := by
  have hidx : ∀ x i, (sccIndices comps)[x]? = some i ↔ InGroup comps x i :=
    fun x i => positions_eq_some_iff huniq
  have hrows : ∀ row ∈ g.toList, ∃ i, (sccIndices comps)[row.1]? = some i := by
    rintro ⟨k, tos⟩ hrow
    rw [mem_toList_iff_getElem?_eq_some] at hrow
    obtain ⟨i, hi⟩ := hcover k (mem_iff_isSome_getElem?.mpr (by rw [hrow]; rfl))
    exact ⟨i, (hidx k i).mpr hi⟩
  obtain ⟨reduced, hreduced, hkeys, hedges⟩ := foldlM_reduceRow g.toList hrows
  refine ⟨reduced, ?_, ?_, ?_⟩
  · have heq : makeSccReducedGraph comps g =
        (g.toList.foldlM (reduceRow (sccIndices comps)) ∅ >>= fun r =>
          pure (sccIndices comps, r)) := rfl
    rw [heq, hreduced]
    rfl
  · intro i hi
    obtain ⟨row, -, hrow⟩ := hkeys i hi
    obtain ⟨group, hgroup, -⟩ := (hidx row.1 i).mp hrow
    exact (List.getElem_of_getElem? hgroup).1
  · intro i j q
    rw [hedges]
    simp only [mem_toList_iff_getElem?_eq_some, hidx]
    refine and_congr_right fun _ => ?_
    constructor
    · rintro ⟨k, tos, htos, hk, v, b, hb, hv, hq⟩
      exact ⟨k, v, hk, hv, b, ⟨tos, htos, hb⟩, hq⟩
    · rintro ⟨k, v, hk, hv, b, ⟨tos, htos, hb⟩, hq⟩
      exact ⟨k, tos, htos, hk, v, b, hb, hv, hq⟩

/-! ## The reduced graph has no cycle -/

/-- A component that leads to another. -/
def LeadsTo (graph : Graph Symbol) (comps : List (List Symbol)) (i j : ℕ) : Prop :=
  i ≠ j ∧ ∃ u v, InGroup comps u i ∧ InGroup comps v j ∧ Reaches graph u v

section

variable {graph : Graph Symbol} (hcomps : IsComponents graph comps)

include hcomps

lemma leadsTo_trans {i j k : ℕ} (hij : LeadsTo graph comps i j) (hjk : LeadsTo graph comps j k) :
    LeadsTo graph comps i k := by
  obtain ⟨hne, u, v, hu, hv, huv⟩ := hij
  obtain ⟨-, v', w, hv', hw, hvw⟩ := hjk
  have hvv' : Reaches graph v v' := ((hcomps.same_iff v v' j j hv hv').mp rfl).1
  refine ⟨?_, u, w, hu, hw, (huv.trans hvv').trans hvw⟩
  -- A way back would make the first two components one.
  rintro rfl
  have hwu : Reaches graph w u := ((hcomps.same_iff w u i i hw hu).mp rfl).1
  exact hne ((hcomps.same_iff u v i j hu hv).mpr ⟨huv, (hvv'.trans hvw).trans hwu⟩)

lemma leadsTo_wellFounded : WellFounded (LeadsTo graph comps) := by
  classical
  let above : ℕ → Finset ℕ := fun j =>
    (Finset.range comps.length).filter fun i => LeadsTo graph comps i j
  refine Subrelation.wf (fun {i j} hij => ?_) (measure fun j => (above j).card).wf
  have hrange : i ∈ Finset.range comps.length := by
    obtain ⟨-, _, _, ⟨_, hu, -⟩, -⟩ := hij
    exact Finset.mem_range.mpr (List.getElem_of_getElem? hu).1
  refine Finset.card_lt_card (Finset.ssubset_iff_subset_ne.mpr ⟨fun k hk => ?_, fun heq => ?_⟩)
  · obtain ⟨hk, hki⟩ := Finset.mem_filter.mp hk
    exact Finset.mem_filter.mpr ⟨hk, leadsTo_trans hcomps hki hij⟩
  · have hi : i ∈ above i := heq ▸ Finset.mem_filter.mpr ⟨hrange, hij⟩
    exact (Finset.mem_filter.mp hi).2.1 rfl

lemma Reduces.wellFounded {reduced : StratifiedGraph ℕ} (h : Reduces g comps reduced)
    (hreach : ∀ k v q, GraphEdge g k v q → Reaches graph k v) :
    WellFounded fun i j => ∃ b, LabelledEdge reduced i j b := by
  refine Subrelation.wf (fun {i j} hij => ?_) (leadsTo_wellFounded hcomps)
  obtain ⟨b, hb⟩ := hij
  obtain ⟨hne, k, v, hk, hv, hedge⟩ := (h.edge_iff i j b).mp ⟨b, hb, id⟩
  exact ⟨hne, k, v, hk, hv, hreach k v b hedge⟩

end

lemma Reduces.inRange {reduced : StratifiedGraph ℕ} (h : Reduces g comps reduced) :
    InRange reduced comps.length := by
  refine ⟨h.keys, fun i j b hb => ?_⟩
  obtain ⟨-, _, _, -, ⟨_, hv, -⟩, -⟩ := (h.edge_iff i j b).mp ⟨b, hb, id⟩
  exact (List.getElem_of_getElem? hv).1

end Kyzo

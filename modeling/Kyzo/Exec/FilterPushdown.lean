import Kyzo.Exec.RelRuns

/-!
# Pushing filters down

`RelAlgebra::filter` splits a filter into its conjuncts and hands each to the side of a join whose
columns it reads, down to the scans.  `narrowed` says where filters end up, without the order in
which they are handed down.  The tree has the rows of the old one on which the filters hold.  What
changes is where a conjunct is evaluated: on rows of a side, before the join and without the
conjuncts that stood in front of it, where it can fail although the whole filter never does.
-/

namespace Kyzo

open List RelAlgebra Kyzo.Expr List.Subset

/-! ## Where filters go -/

/-- What filters over a join leave to its left side, to its right side and above it. -/
structure Shares where
  left : List Expr
  right : List Expr
  above : List Expr

namespace Shares

section

variable (ln rn : List Symbol)

/-- One more filter: each conjunct goes to the side whose columns it reads.  Once a conjunct has
stayed above the join, so do whole filters. -/
def add (s : Shares) (f : Expr) : Shares :=
  if s.above = [] then
    { left := s.left ++ f.toConjunction.filter (·.ReadsOnly ln)
      right := s.right ++ f.toConjunction.filter fun c => ¬ c.ReadsOnly ln ∧ c.ReadsOnly rn
      above := f.toConjunction.filter fun c => ¬ c.ReadsOnly ln ∧ ¬ c.ReadsOnly rn }
  else { s with above := s.above ++ [f] }

def of (es : List Expr) : Shares := es.foldl (add ln rn) ⟨[], [], []⟩

end

variable {ln rn : List Symbol}

lemma of_append_singleton (es : List Expr) (f : Expr) :
    of ln rn (es ++ [f]) = (of ln rn es).add ln rn f := by
  rw [of, foldl_append]
  rfl

/-- Filters in two parts: the second is shared out as long as the first leaves nothing above. -/
theorem of_append (es es' : List Expr) : of ln rn (es ++ es') = if (of ln rn es).above = [] then
      ⟨(of ln rn es).left ++ (of ln rn es').left, (of ln rn es).right ++ (of ln rn es').right,
        (of ln rn es').above⟩
    else { of ln rn es with above := (of ln rn es).above ++ es' } := by
  induction es' using reverseRecOn with
  | nil =>
    rw [append_nil]
    split_ifs with h
    · change _ = Shares.mk (_ ++ []) (_ ++ []) []
      rw [append_nil, append_nil, ← h]
    · rw [append_nil]
  | append_singleton es' f ih =>
    rw [← append_assoc, of_append_singleton, ih, of_append_singleton]
    by_cases h : (of ln rn es).above = []
    · rw [if_pos h, if_pos h]
      unfold add
      dsimp only
      split_ifs with h'
      · simp only [append_assoc]
      · rfl
    · rw [if_neg h, if_neg h, add, if_neg (by simp [h])]
      simp only [append_assoc]

lemma reads (es : List Expr) : (∀ c ∈ (of ln rn es).left, c.ReadsOnly ln) ∧
    ∀ c ∈ (of ln rn es).right, c.ReadsOnly rn := by
  induction es using reverseRecOn with
  | nil => exact ⟨forall_mem_nil _, forall_mem_nil _⟩
  | append_singleton es f ih =>
    rw [of_append_singleton, add]
    split_ifs
    · exact ⟨forall_mem_append.mpr ⟨ih.1, fun c hc => of_decide_eq_true (mem_filter.mp hc).2⟩,
        forall_mem_append.mpr ⟨ih.2, fun c hc => (of_decide_eq_true (mem_filter.mp hc).2).2⟩⟩
    · exact ih

lemma forall_filter {α : Type} {l : List α} {T p q : α → Prop} [DecidablePred p] [DecidablePred q] :
    ((∀ a ∈ l.filter p, T a) ∧ (∀ a ∈ l.filter fun a => ¬ p a ∧ q a, T a) ∧
      ∀ a ∈ l.filter fun a => ¬ p a ∧ ¬ q a, T a) ↔ ∀ a ∈ l, T a := by
  simp only [mem_filter, decide_eq_true_eq]
  constructor
  · rintro ⟨hp, hq, hn⟩ a ha
    by_cases hpa : p a
    · exact hp a ⟨ha, hpa⟩
    · by_cases hqa : q a
      · exact hq a ⟨ha, hpa, hqa⟩
      · exact hn a ⟨ha, hpa, hqa⟩
  · exact fun h => ⟨fun a ha => h a ha.1, fun a ha => h a ha.1, fun a ha => h a ha.1⟩

/-- What holds of an expression exactly if of its conjuncts holds of all filters exactly if of their
shares. -/
theorem forall_iff {T : Expr → Prop} (hT : ∀ f, (∀ c ∈ f.toConjunction, T c) ↔ T f)
    (es : List Expr) : ((∀ c ∈ (of ln rn es).left, T c) ∧ (∀ c ∈ (of ln rn es).right, T c) ∧
      ∀ c ∈ (of ln rn es).above, T c) ↔ ∀ e ∈ es, T e := by
  induction es using reverseRecOn with
  | nil => simp [of]
  | append_singleton es f ih =>
    rw [forall_mem_append, forall_mem_singleton, ← ih, ← hT, of_append_singleton, add]
    split_ifs with h
    · rw [← forall_filter (l := f.toConjunction) (p := (·.ReadsOnly ln)) (q := (·.ReadsOnly rn)), h]
      simp only [forall_mem_append, not_mem_nil, false_imp_iff, implies_true, and_true]
      tauto
    · simp only [forall_mem_append, forall_mem_singleton, hT]
      tauto

end Shares

lemma readsOnly_toConjunction {f c : Expr} {frame : List Symbol} (h : f.ReadsOnly frame)
    (hc : c ∈ f.toConjunction) : c.ReadsOnly frame := by
  unfold toConjunction at hc
  split at hc
  · rename_i args
    obtain ⟨vars, hvars, hsub⟩ := h
    have hargs : collectBindingsArgs args [] = .ok vars := hvars
    clear hvars
    generalize ([] : List Symbol) = coll at hargs
    induction args generalizing coll with
    | nil => cases hc
    | cons arg args ih =>
      obtain ⟨mid, hmid, hrest⟩ := bind_ok hargs
      rcases mem_cons.mp hc with rfl | hc
      · obtain ⟨own, hown, -⟩ := exists_collects c hmid
        obtain ⟨own', hown', -⟩ := exists_collectsArgs args hrest
        obtain ⟨vars', hvars', hmem⟩ := hown []
        refine ⟨vars', hvars', fun v hv => hsub ((hown'.mem_iff hrest v).mpr (.inl ?_))⟩
        exact (hown.mem_iff hmid v).mpr (.inr (((hmem v).mp hv).resolve_left not_mem_nil))
      · exact ih hc mid hrest
  · rwa [mem_singleton.mp hc]

lemma forall_toConjunction {lib : Library} {f : Expr} {env : Symbol → Option DataValue} :
    (∀ c ∈ f.toConjunction, c.predIn lib env = .ok true) ↔ f.predIn lib env = .ok true := by
  unfold toConjunction
  split
  · rw [predIn, predWith_and, filtersWith_eq_true]
    rfl
  · rw [forall_mem_singleton]

namespace RelAlgebra

/-- A tree under filters, if there are any. -/
def under (t : RelAlgebra) (es : List Expr) : RelAlgebra := if es = [] then t else .filter t es []

/-- A tree with filters at the places where their conjuncts go. -/
def narrowed : RelAlgebra → List Expr → RelAlgebra
  | .scan source bindings filters, es => .scan source bindings (filters ++ es)
  | .filter parent filters toEliminate, es => .filter parent (filters ++ es) toEliminate
  | .join left right joiner toEliminate, es =>
    let s := Shares.of left.bindingsAfterEliminate right.bindingsAfterEliminate es
    (join (left.narrowed s.left) (right.narrowed s.right) joiner toEliminate).under s.above
  | t, es => t.under es

variable {lib : Library} {rd : PlanReads} {t l r : RelAlgebra} {j : Joiner} {el : List Symbol}
  {es : List Expr}

section

variable (t es)

lemma under_nil : t.under [] = t := if_pos rfl

lemma after_under : (t.under es).bindingsAfterEliminate = t.bindingsAfterEliminate := by
  unfold under
  split
  · rfl
  · exact shed_nil

lemma narrowed_nil : t.narrowed [] = t := by
  induction t with
  | scan | filter => simp [narrowed]
  | join l r j el ihl ihr => simp [narrowed, Shares.of, ihl, ihr, under_nil]
  | _ => exact under_nil _

lemma after_narrowed : (t.narrowed es).bindingsAfterEliminate = t.bindingsAfterEliminate := by
  induction t generalizing es with
  | scan | filter => rfl
  | join l r j el ihl ihr =>
    rw [narrowed, after_under]
    simp only [bindingsAfterEliminate, bindingsBeforeEliminate, eliminateSet] at ihl ihr ⊢
    rw [ihl, ihr]
  | _ => exact after_under _ es

lemma bindingsAfterEliminate_subset : t.bindingsAfterEliminate ⊆ t.bindingsBeforeEliminate :=
  shed_subset

lemma before_under : (t.under es).bindingsBeforeEliminate ⊆ t.bindingsBeforeEliminate := by
  unfold under
  split
  · exact refl _
  · exact bindingsAfterEliminate_subset t

lemma before_narrowed : (t.narrowed es).bindingsBeforeEliminate ⊆ t.bindingsBeforeEliminate := by
  cases t with
  | scan | filter => exact refl _
  | join l r j el =>
    refine List.Subset.trans (before_under _ _) ?_
    change (l.narrowed _).bindingsAfterEliminate ++ (r.narrowed _).bindingsAfterEliminate ⊆ _
    rw [after_narrowed, after_narrowed]
    exact refl _
  | _ => exact before_under _ es

lemma spine_narrowed_le : (t.narrowed es).spine ≤ t.spine := by
  have hunder (t : RelAlgebra) (es : List Expr) : (t.under es).spine ≤ t.spine := by
    unfold under
    split
    · exact le_rfl
    · exact Nat.zero_le _
  induction t generalizing es with
  | scan | filter => exact le_rfl
  | join l r j el ihl ihr =>
    refine (hunder _ _).trans ?_
    exact Nat.succ_le_succ (max_le_max (ihl _) (ihr _))
  | _ => exact hunder _ es

end

/-- Filters put in one after another end up where they do together. -/
theorem narrowed_narrowed (t : RelAlgebra) (es es' : List Expr) :
    (t.narrowed es).narrowed es' = t.narrowed (es ++ es') := by
  have hunder (t : RelAlgebra) (es es' : List Expr) (h : ∀ es, t.narrowed es = t.under es) :
      (t.under es).narrowed es' = t.under (es ++ es') := by
    by_cases hes : es = []
    · rw [hes, under_nil, h, nil_append]
    · rw [under, if_neg hes, under, if_neg (by simp [hes])]
      rfl
  induction t generalizing es es' with
  | scan | filter => simp only [narrowed, append_assoc]
  | join l r j el ihl ihr =>
    rw [narrowed, narrowed, Shares.of_append]
    dsimp only
    split_ifs with h
    · rw [h, under_nil, narrowed, after_narrowed, after_narrowed, ihl, ihr]
    · rw [under, if_neg h, under, if_neg (by simp [h])]
      rfl
  | _ => exact hunder _ es es' fun _ => rfl

/-! ## What the filtered tree is -/

variable {row : Tuple}

lemma reads_shares {frame : List Symbol} (h : ∀ e ∈ es, e.ReadsOnly frame) (ln rn : List Symbol) :
    (∀ c ∈ (Shares.of ln rn es).left, c.ReadsOnly frame) ∧
      (∀ c ∈ (Shares.of ln rn es).right, c.ReadsOnly frame) ∧
      ∀ c ∈ (Shares.of ln rn es).above, c.ReadsOnly frame := by
  induction es using reverseRecOn with
  | nil => simp [Shares.of]
  | append_singleton es f ih =>
    obtain ⟨hes, hf⟩ := forall_mem_append.mp h
    obtain ⟨hl, hr, ha⟩ := ih hes
    have hconj (p : Expr → Bool) : ∀ c ∈ f.toConjunction.filter p, c.ReadsOnly frame := fun c hc =>
      readsOnly_toConjunction (hf f (mem_singleton_self f)) (mem_filter.mp hc).1
    rw [Shares.of_append_singleton, Shares.add]
    split_ifs
    · exact ⟨forall_mem_append.mpr ⟨hl, hconj _⟩, forall_mem_append.mpr ⟨hr, hconj _⟩, hconj _⟩
    · exact ⟨hl, hr, forall_mem_append.mpr ⟨ha, hf⟩⟩

lemma wellFormed_under (wf : t.WellFormed rd) (h : ∀ e ∈ es, e.ReadsOnly t.bindingsAfterEliminate) :
    (t.under es).WellFormed rd := by
  unfold under
  split
  · exact wf
  · exact .filter wf h

lemma after_join (l r : RelAlgebra) (j : Joiner) (el : List Symbol) (ls rs : List Expr) :
    (join (l.narrowed ls) (r.narrowed rs) j el).bindingsAfterEliminate =
      (join l r j el).bindingsAfterEliminate := by
  change shed el (bindingsAfterEliminate _ ++ bindingsAfterEliminate _) = _
  rw [after_narrowed, after_narrowed]
  rfl

lemma wellFormed_join (wf : (join l r j el).WellFormed rd) {ls rs : List Expr}
    (hl : (l.narrowed ls).WellFormed rd) (hr : (r.narrowed rs).WellFormed rd) :
    (join (l.narrowed ls) (r.narrowed rs) j el).WellFormed rd := by
  cases wf with
  | join _ _ pairs left_keys right_keys nodup disjoint =>
  refine .join hl hr pairs ?_ ?_ nodup
    fun v hv hv' => disjoint (before_narrowed l _ hv) (before_narrowed r _ hv')
  · rwa [after_narrowed]
  · rwa [after_narrowed]

lemma wellFormed_narrowed (wf : t.WellFormed rd)
    (h : ∀ e ∈ es, e.ReadsOnly t.bindingsAfterEliminate) : (t.narrowed es).WellFormed rd := by
  induction t generalizing es with
  | scan =>
    cases wf with
    | scan nodup width reads =>
    refine .scan nodup width (forall_mem_append.mpr ⟨reads, fun e he => ?_⟩)
    exact (h e he).mono shed_subset
  | filter =>
    cases wf with
    | filter parent_wf reads =>
    refine .filter parent_wf (forall_mem_append.mpr ⟨reads, fun e he => ?_⟩)
    exact (h e he).mono shed_subset
  | join l r j el ihl ihr =>
    cases id wf with
    | join left_wf right_wf =>
    refine wellFormed_under (wellFormed_join wf (ihl left_wf (Shares.reads es).1)
      (ihr right_wf (Shares.reads es).2)) ?_
    rw [after_join]
    exact (reads_shares h _ _).2.2
  | _ => exact wellFormed_under wf h

lemma wellFormed_shares (wf : (join l r j el).WellFormed rd) (es : List Expr) :
    let s := Shares.of l.bindingsAfterEliminate r.bindingsAfterEliminate es
    (join (l.narrowed s.left) (r.narrowed s.right) j el).WellFormed rd := by
  cases id wf with
  | join hleft hright =>
    exact wellFormed_join wf (wellFormed_narrowed hleft (Shares.reads es).1)
      (wellFormed_narrowed hright (Shares.reads es).2)

/-- Filters are added to trees with few joins below each other, at the places said. -/
def Pushes (rd : PlanReads) (fuel : ℕ) : Prop :=
  ∀ (t : RelAlgebra) (f : Expr), t.spine ≤ fuel → t.WellFormed rd →
    f.ReadsOnly t.bindingsAfterEliminate → filterWithin fuel t f = .ok (t.narrowed [f])

lemma Pushes.narrowed {fuel : ℕ} (push : Pushes rd fuel) (hfuel : t.spine ≤ fuel)
    (wf : t.WellFormed rd) {c : Expr} (hes : ∀ e ∈ es, e.ReadsOnly t.bindingsAfterEliminate)
    (hc : c.ReadsOnly t.bindingsAfterEliminate) :
    filterWithin fuel (t.narrowed es) c = .ok (t.narrowed (es ++ [c])) := by
  rw [push _ c ((spine_narrowed_le t es).trans hfuel) (wellFormed_narrowed wf hes)
    (by rwa [after_narrowed]), narrowed_narrowed]

/-- A conjunct over a join reads columns a side shows exactly if it reads columns of that side. -/
lemma readsOnly_iff {c : Expr} {vars frame : List Symbol} (hvars : c.bindings = .ok vars)
    (hjoined : c.ReadsOnly frame) {names shown : List Symbol} (hsub : shown ⊆ names)
    (hshown : ∀ v ∈ frame, v ∈ names → v ∈ shown) : vars ⊆ names ↔ c.ReadsOnly shown := by
  obtain ⟨vars', hvars', hframe⟩ := hjoined
  cases hvars.symm.trans hvars'
  constructor
  · exact fun h => ⟨vars, hvars, fun v hv => hshown v (hframe hv) (h hv)⟩
  · rintro ⟨vars', hvars', h⟩
    cases hvars.symm.trans hvars'
    exact List.Subset.trans h hsub

/-- Handing out the conjuncts of a filter over a join. -/
theorem foldlM_conjunct {fuel : ℕ} (push : Pushes rd fuel) (hl : l.spine ≤ fuel)
    (hr : r.spine ≤ fuel) (wf : (join l r j el).WellFormed rd) (rest : List Expr)
    {ls rs cs : List Expr} (hls : ∀ e ∈ ls, e.ReadsOnly l.bindingsAfterEliminate)
    (hrs : ∀ e ∈ rs, e.ReadsOnly r.bindingsAfterEliminate)
    (hcs : ∀ c ∈ cs, c.ReadsOnly (join l r j el).bindingsAfterEliminate) :
    cs.foldlM (Pushed.conjunct (filterWithin fuel) l.bindingsBeforeEliminate
        r.bindingsBeforeEliminate) ⟨l.narrowed ls, r.narrowed rs, rest⟩ =
      .ok ⟨l.narrowed (ls ++ cs.filter (·.ReadsOnly l.bindingsAfterEliminate)),
        r.narrowed (rs ++ cs.filter fun c =>
          ¬ c.ReadsOnly l.bindingsAfterEliminate ∧ c.ReadsOnly r.bindingsAfterEliminate),
        rest ++ cs.filter fun c =>
          ¬ c.ReadsOnly l.bindingsAfterEliminate ∧ ¬ c.ReadsOnly r.bindingsAfterEliminate⟩ := by
  cases id wf with
  | join hleft hright _ _ _ _ disjoint =>
  induction cs generalizing ls rs rest with
  | nil =>
    simp only [foldlM_nil, filter_nil, append_nil]
    rfl
  | cons c cs ih =>
    obtain ⟨hc, hcs⟩ := forall_mem_cons.mp hcs
    obtain ⟨vars, hvars, -⟩ := id hc
    have hinL : vars ⊆ l.bindingsBeforeEliminate ↔ c.ReadsOnly l.bindingsAfterEliminate :=
      readsOnly_iff hvars hc (bindingsAfterEliminate_subset l) fun v hv hmem =>
        (mem_append.mp (shed_subset hv)).resolve_right fun hr =>
          disjoint hmem (bindingsAfterEliminate_subset r hr)
    have hinR : vars ⊆ r.bindingsBeforeEliminate ↔ c.ReadsOnly r.bindingsAfterEliminate :=
      readsOnly_iff hvars hc (bindingsAfterEliminate_subset r) fun v hv hmem =>
        (mem_append.mp (shed_subset hv)).resolve_left fun hl =>
          disjoint (bindingsAfterEliminate_subset l hl) hmem
    have hvars' : c.bindings.mapError PlanError.expr = .ok vars := by rw [hvars]; rfl
    rw [foldlM_cons, Pushed.conjunct, hvars', ok_bind]
    by_cases hcl : c.ReadsOnly l.bindingsAfterEliminate
    · rw [if_pos (hinL.mpr hcl), push.narrowed hl hleft hls hcl, ok_bind, pure_bind,
        ih rest (forall_mem_append.mpr ⟨hls, forall_mem_singleton.mpr hcl⟩) hrs hcs]
      simp [hcl]
    · rw [if_neg (mt hinL.mp hcl)]
      by_cases hcr : c.ReadsOnly r.bindingsAfterEliminate
      · rw [if_pos (hinR.mpr hcr), push.narrowed hr hright hrs hcr, ok_bind, pure_bind,
          ih rest hls (forall_mem_append.mpr ⟨hrs, forall_mem_singleton.mpr hcr⟩) hcs]
        simp [hcl, hcr]
      · rw [if_neg (mt hinR.mp hcr), pure_bind, ih _ hls hrs hcs]
        simp [hcl, hcr]

/-- **Filters go to their places.** -/
theorem filterWithin_eq (rd : PlanReads) (fuel : ℕ) : Pushes rd fuel := by
  induction fuel with
  | zero =>
    intro t f hfuel wf reads
    cases t with
    | join l r j el => cases hfuel
    | _ => rfl
  | succ fuel ih =>
    intro t f hfuel wf reads
    cases t with
    | join l r j el =>
      obtain ⟨hl, hr⟩ : l.spine ≤ fuel ∧ r.spine ≤ fuel := by
        simp only [spine] at hfuel
        omega
      have hfold := foldlM_conjunct ih hl hr wf [] (forall_mem_nil _) (forall_mem_nil _)
        fun c hc => readsOnly_toConjunction reads hc
      rw [narrowed_nil, narrowed_nil] at hfold
      rw [filterWithin, hfold]
      rfl
    | _ => rfl

/-! ## Its rows -/

lemma passes_append {frame : List Symbol} {fs : List Expr} : Passes lib frame (fs ++ es) row ↔
    Passes lib frame fs row ∧ Passes lib frame es row :=
  forall_mem_append

lemma predIn_eliminateFromTuple {e : Expr} {names : List Symbol}
    (hreads : e.ReadsOnly (shed el names)) (hlen : row.length = names.length) :
    e.predIn lib (rowEnv (shed el names) (eliminateFromTuple el names row)) =
      e.predIn lib (rowEnv names row) := by
  obtain ⟨vars, hvars, hsub⟩ := hreads
  exact predIn_congr lib hvars fun v hv =>
    rowEnv_eliminateFromTuple hlen (mem_shed.mp (hsub hv)).2

lemma passes_eliminateFromTuple {names : List Symbol} (h : ∀ e ∈ es, e.ReadsOnly (shed el names))
    (hlen : row.length = names.length) :
    Passes lib (shed el names) es (eliminateFromTuple el names row) ↔ Passes lib names es row :=
  forall₂_congr fun e he => by rw [predIn_eliminateFromTuple (h e he) hlen]

lemma rows_under (wf : t.WellFormed rd) : (t.under es).Rows lib rd row ↔
    t.Rows lib rd row ∧ Passes lib t.bindingsAfterEliminate es row := by
  unfold under
  split_ifs with h
  · simp [h, Passes]
  · constructor
    · rintro ⟨l, hl, hpass, rfl⟩
      rw [eliminateFromTuple_nil _ _ (hl.length_eq wf)]
      exact ⟨hl, hpass⟩
    · rintro ⟨hl, hpass⟩
      exact ⟨row, hl, hpass, eliminateFromTuple_nil _ _ (hl.length_eq wf)⟩

lemma comparedKeys_narrowed (r : RelAlgebra) (es : List Expr) :
    comparedKeys (r.narrowed es) j = comparedKeys r j := by
  have hunder (t : RelAlgebra) (h : comparedKeys t j = j.leftKeys.zip j.rightKeys)
      (es : List Expr) : comparedKeys (t.under es) j = comparedKeys t j := by
    unfold under
    split
    · rfl
    · exact h.symm
  cases r with
  | scan | filter => rfl
  | join => exact hunder (join _ _ _ _) rfl _
  | _ => exact hunder _ rfl es

lemma probedScan_narrowed (r : RelAlgebra) (es : List Expr) : probedScan (r.narrowed es) j =
    (probedScan r j).map fun p => (p.1, p.2.1, p.2.2 ++ es) := by
  have hunder (t : RelAlgebra) (h : probedScan t j = none) (es : List Expr) :
      probedScan (t.under es) j = none := by
    unfold under
    split
    · exact h
    · rfl
  cases r with
  | scan source bindings filters =>
    simp only [narrowed, probedScan]
    split_ifs <;> rfl
  | filter => rfl
  | join => exact hunder (join _ _ _ _) rfl _
  | _ => exact hunder _ rfl es

/-- An expression over the columns of a side has on a joined row its value on that side's row. -/
theorem predIn_join (lib : Library) {c : Expr} {ln rn frame : List Symbol} {lrow rrow row : Tuple}
    (hl : lrow.length = ln.length) (hr : rrow.length = rn.length) (hreads : c.ReadsOnly frame)
    (hjoined : c.ReadsOnly (shed el (ln ++ rn)))
    (hside : ∀ v ∈ frame, (rowEnv rn rrow v).or (rowEnv ln lrow v) = rowEnv frame row v) :
    c.predIn lib (rowEnv (shed el (ln ++ rn)) (eliminateFromTuple el (ln ++ rn) (lrow ++ rrow))) =
      c.predIn lib (rowEnv frame row) := by
  rw [predIn_eliminateFromTuple hjoined (by rw [length_append, length_append, hl, hr])]
  obtain ⟨vars, hvars, hsub⟩ := hreads
  refine predIn_congr lib hvars fun v hv => ?_
  rw [rowEnv_append hl, hside v (hsub hv)]

section

variable {s : Shares} (hs : Shares.of l.bindingsAfterEliminate r.bindingsAfterEliminate es = s)
  (wf : (join l r j el).WellFormed rd)
  (reads : ∀ e ∈ es, e.ReadsOnly (join l r j el).bindingsAfterEliminate)
include hs wf reads

/-- What the shares of the sides say of two rows is what they say of the joined row. -/
theorem passes_sides {lrow rrow : Tuple} (hl : l.Rows lib rd lrow) (hr : r.Rows lib rd rrow) :
    Passes lib (join l r j el).bindingsAfterEliminate (s.left ++ s.right) (eliminateFromTuple el
      (l.bindingsAfterEliminate ++ r.bindingsAfterEliminate) (lrow ++ rrow)) ↔
    Passes lib l.bindingsAfterEliminate s.left lrow ∧
      Passes lib r.bindingsAfterEliminate s.right rrow := by
  subst hs
  obtain ⟨hreadsL, hreadsR, -⟩ :=
    reads_shares reads l.bindingsAfterEliminate r.bindingsAfterEliminate
  cases wf with
  | join hleft hright _ _ _ _ disjoint =>
  rw [passes_append]
  refine and_congr (forall₂_congr fun c hc => ?_) (forall₂_congr fun c hc => ?_)
  · rw [← predIn_join lib (hl.length_eq hleft) (hr.length_eq hright) ((Shares.reads es).1 c hc)
      (hreadsL c hc) fun v hv => by
        rw [rowEnv_eq_none fun hmem => disjoint (bindingsAfterEliminate_subset l hv)
          (bindingsAfterEliminate_subset r hmem), Option.none_or]]
    rfl
  · rw [← predIn_join lib (hl.length_eq hleft) (hr.length_eq hright) ((Shares.reads es).2 c hc)
      (hreadsR c hc) fun v hv => by
        rw [rowEnv_eq_none fun hmem => disjoint (bindingsAfterEliminate_subset l hmem)
          (bindingsAfterEliminate_subset r hv), Option.or_none]]
    rfl

lemma rows_join (hrowsL : ∀ row, (l.narrowed s.left).Rows lib rd row ↔
      l.Rows lib rd row ∧ Passes lib l.bindingsAfterEliminate s.left row)
    (hrowsR : ∀ row, (r.narrowed s.right).Rows lib rd row ↔
      r.Rows lib rd row ∧ Passes lib r.bindingsAfterEliminate s.right row) :
    (join (l.narrowed s.left) (r.narrowed s.right) j el).Rows lib rd row ↔
      (join l r j el).Rows lib rd row ∧
        Passes lib (join l r j el).bindingsAfterEliminate (s.left ++ s.right) row := by
  simp only [Rows, after_narrowed, comparedKeys_narrowed, hrowsL, hrowsR]
  constructor
  · rintro ⟨lrow, rrow, ⟨hl, hls⟩, ⟨hr, hrs⟩, hag, rfl⟩
    exact ⟨⟨lrow, rrow, hl, hr, hag, rfl⟩, (passes_sides hs wf reads hl hr).mpr ⟨hls, hrs⟩⟩
  · rintro ⟨⟨lrow, rrow, hl, hr, hag, rfl⟩, hpass⟩
    obtain ⟨hls, hrs⟩ := (passes_sides hs wf reads hl hr).mp hpass
    exact ⟨lrow, rrow, ⟨hl, hls⟩, ⟨hr, hrs⟩, hag, rfl⟩

end

/-- **The rows of the filtered tree** are those on which the filters hold. -/
theorem rows_narrowed (wf : t.WellFormed rd)
    (reads : ∀ e ∈ es, e.ReadsOnly t.bindingsAfterEliminate) :
    (t.narrowed es).Rows lib rd row ↔
      t.Rows lib rd row ∧ Passes lib t.bindingsAfterEliminate es row := by
  induction t generalizing es row with
  | scan =>
    rw [narrowed, Rows, Rows, passes_append, ← and_assoc, bindingsAfterEliminate, eliminateSet,
      bindingsBeforeEliminate, shed_nil]
  | filter =>
    cases wf with
    | filter parent_wf hreads =>
    constructor
    · rintro ⟨l, hl, hpass, rfl⟩
      obtain ⟨hfs, hes⟩ := passes_append.mp hpass
      exact ⟨⟨l, hl, hfs, rfl⟩, (passes_eliminateFromTuple reads (hl.length_eq parent_wf)).mpr hes⟩
    · rintro ⟨⟨l, hl, hfs, rfl⟩, hes⟩
      exact ⟨l, hl, passes_append.mpr
        ⟨hfs, (passes_eliminateFromTuple reads (hl.length_eq parent_wf)).mp hes⟩, rfl⟩
  | join l r j el ihl ihr =>
    cases id wf with
    | join hleft hright =>
    rw [narrowed, rows_under (wellFormed_shares wf es), after_join,
      rows_join rfl wf reads (fun _ => ihl hleft (Shares.reads es).1)
        (fun _ => ihr hright (Shares.reads es).2), and_assoc, passes_append, and_assoc]
    exact and_congr_right fun _ => Shares.forall_iff (fun _ => forall_toConjunction) es
  | _ => exact rows_under wf

/-! ## Where it fails -/

lemma decides_nil (frame : List Symbol) (row : Tuple) : Decides lib frame [] row := ⟨true, rfl⟩

lemma decides_append {frame : List Symbol} {fs : List Expr} : Decides lib frame (fs ++ es) row ↔
    Decides lib frame fs row ∧ (Passes lib frame fs row → Decides lib frame es row) := by
  have hpasses : Passes lib frame fs row ↔
      filtersWith lib (readNamed (rowEnv frame row)) fs = .ok true := filtersWith_eq_true.symm
  rw [hpasses]
  unfold Decides
  rw [filtersWith_append]
  rcases filtersWith lib (readNamed (rowEnv frame row)) fs with fault | b
  · constructor
    · rintro ⟨_, h⟩
      cases h
    · rintro ⟨⟨_, h⟩, -⟩
      cases h
  · cases b <;> simp [ok_bind]

lemma filtersWith_congr {look look' : Symbol → BindingPos → Except ExprFault DataValue}
    (h : ∀ e ∈ es, e.predWith lib look = e.predWith lib look') :
    filtersWith lib look es = filtersWith lib look' es := by
  induction es with
  | nil => rfl
  | cons e es ih =>
    obtain ⟨he, hes⟩ := forall_mem_cons.mp h
    rw [filtersWith, filtersWith, he, ih hes]

lemma decides_eliminateFromTuple {names : List Symbol} (h : ∀ e ∈ es, e.ReadsOnly (shed el names))
    (hlen : row.length = names.length) :
    Decides lib (shed el names) es (eliminateFromTuple el names row) ↔
      Decides lib names es row := by
  unfold Decides
  rw [filtersWith_congr fun e he => predIn_eliminateFromTuple (h e he) hlen]

section

variable (lib rd)

/-- Filters put into a tree decide where their conjuncts are evaluated: those handed to a side of a
join on every row of that side, with no regard to the other one; in a probed scan on the rows that
the probe finds; what stays above a join on the joined rows that the sides let pass. -/
def Meets : RelAlgebra → List Expr → Prop
  | .join left right joiner toEliminate, es =>
    let s := Shares.of left.bindingsAfterEliminate right.bindingsAfterEliminate es
    (if left.isUnit = true ∧ s.left = [] then right.Meets s.right
    else left.Meets s.left ∧
      match probedScan right joiner with
      | some (source, bindings, filters) =>
        ∀ l r, left.Rows lib rd l → Passes lib left.bindingsAfterEliminate s.left l →
          rd.Scans source r →
          Agree (comparedKeys right joiner) left.bindingsAfterEliminate bindings l r →
          InScan (source.boundColumns bindings joiner.rightKeys.length) (filters ++ s.right)
            joiner.rightKeys.length r →
          Decides lib bindings (filters ++ s.right) r
      | none => right.Meets s.right) ∧
    let names := (join left right joiner toEliminate).bindingsAfterEliminate
    ∀ row, (join left right joiner toEliminate).Rows lib rd row →
      Passes lib names (s.left ++ s.right) row → Decides lib names s.above row
  | t, es => ∀ row, t.Rows lib rd row → Decides lib t.bindingsAfterEliminate es row

/-- `Spared`, for a tree with filters put into it. -/
def SparedUnder : RelAlgebra → List Expr → Prop
  | .join left right joiner _, es =>
    let s := Shares.of left.bindingsAfterEliminate right.bindingsAfterEliminate es
    left.SparedUnder s.left ∧ right.SparedUnder s.right ∧ ((left.isUnit = true ∧ s.left = []) ∨
      match probedScan right joiner with
      | some (source, bindings, filters) =>
        ∀ l r, left.Rows lib rd l → Passes lib left.bindingsAfterEliminate s.left l →
          right.Rows lib rd r → Passes lib right.bindingsAfterEliminate s.right r →
          Agree (comparedKeys right joiner) left.bindingsAfterEliminate bindings l r →
          InScan (source.boundColumns bindings joiner.rightKeys.length) (filters ++ s.right)
            joiner.rightKeys.length r
      | none => True)
  | t, _ => t.Spared lib rd

end

section

variable (t es)

lemma isUnit_narrowed : (t.narrowed es).isUnit = true ↔ t.isUnit = true ∧ es = [] := by
  have hunder (t : RelAlgebra) (es : List Expr) :
      (t.under es).isUnit = true ↔ t.isUnit = true ∧ es = [] := by
    unfold under
    split_ifs with h
    · simp [h]
    · simp [h, isUnit]
  cases t with
  | scan | filter => simp [narrowed, isUnit]
  | join l r j el =>
    rw [narrowed, hunder]
    simp [isUnit]
  | _ => exact hunder _ es

lemma completes_under :
    (t.under es).Completes lib rd ↔ t.Completes lib rd ∧ ∀ row, t.Rows lib rd row →
      Decides lib t.bindingsAfterEliminate es row := by
  unfold under
  split_ifs with h
  · subst h
    exact (and_iff_left fun row _ => decides_nil _ row).symm
  · rfl

lemma spared_under : (t.under es).Spared lib rd ↔ t.Spared lib rd := by
  unfold under
  split_ifs <;> rfl

end

lemma spared_narrowed (wf : t.WellFormed rd)
    (reads : ∀ e ∈ es, e.ReadsOnly t.bindingsAfterEliminate) :
    (t.narrowed es).Spared lib rd ↔ t.SparedUnder lib rd es := by
  induction wf generalizing es with
  | join hleft hright pairs left_keys right_keys nodup disjoint ihl ihr =>
    rw [narrowed, spared_under, Spared, SparedUnder, ihl (Shares.reads es).1,
      ihr (Shares.reads es).2, isUnit_narrowed, probedScan_narrowed]
    simp only [after_narrowed, comparedKeys_narrowed, rows_narrowed hleft (Shares.reads es).1,
      rows_narrowed hright (Shares.reads es).2, and_imp]
    refine and_congr_right fun _ => and_congr_right fun _ => or_congr_right ?_
    cases probedScan _ _ with
    | none => exact Iff.rfl
    | some p => exact Iff.rfl
  | scan | filter => exact Iff.rfl
  | _ => exact spared_under _ es

lemma eq_scan_of_probedScan {source : ScanSource} {bindings : List Symbol} {filters : List Expr}
    (h : probedScan r j = some (source, bindings, filters)) :
    r = .scan source bindings filters := by
  unfold probedScan at h
  split at h
  · split at h
    · cases h
      rfl
    · cases h
  · cases h

/-- What runs in a join that runs. -/
lemma completes_of_join (h : (join l r j el).Completes lib rd) : l.Completes lib rd ∧
    match probedScan r j with
    | some (source, _, _) => ∃ rows, rd.scanRows source = .ok rows
    | none => r.Completes lib rd := by
  rw [Completes] at h
  split_ifs at h with hunit
  · constructor
    · cases l with
      | fixed => trivial
      | _ => cases hunit
    · split
      · rename_i hscan
        rw [eq_scan_of_probedScan hscan] at h
        exact h.1
      · exact h
  · refine ⟨h.1, ?_⟩
    split
    · rename_i hscan
      rw [hscan] at h
      exact h.2.1
    · rename_i hscan
      rw [hscan] at h
      exact h.2

/-- **Where the filtered tree fails**: if the tree runs, it does exactly if the filters decide at
their places. -/
theorem completes_narrowed (wf : t.WellFormed rd)
    (reads : ∀ e ∈ es, e.ReadsOnly t.bindingsAfterEliminate) (hc : t.Completes lib rd) :
    (t.narrowed es).Completes lib rd ↔ t.Meets lib rd es := by
  induction t generalizing es with
  | scan source bindings filters =>
    change _ ↔ ∀ row, _ → Decides lib (shed [] bindings) es row
    simp only [narrowed, Completes, and_iff_right hc.1, decides_append, Rows, and_imp, shed_nil]
    exact forall₂_congr fun row hrow => and_iff_right (hc.2 row hrow)
  | filter parent filters el =>
    cases wf with
    | filter parent_wf hreads =>
    change _ ∧ (∀ l, _ → Decides lib _ (filters ++ es) l) ↔
      ∀ row, (∃ l, parent.Rows lib rd l ∧ Passes lib _ filters l ∧ _ = row) → Decides lib _ es row
    rw [and_iff_right hc.1]
    constructor
    · rintro h _ ⟨l, hl, hpass, rfl⟩
      exact (decides_eliminateFromTuple reads (hl.length_eq parent_wf)).mpr
        ((decides_append.mp (h l hl)).2 hpass)
    · refine fun h l hl => decides_append.mpr ⟨hc.2 l hl, fun hpass => ?_⟩
      exact (decides_eliminateFromTuple reads (hl.length_eq parent_wf)).mp (h _ ⟨l, hl, hpass, rfl⟩)
  | join l r j el ihl ihr =>
    cases id wf with
    | join hleft hright =>
    rw [narrowed, completes_under, after_join, Meets]
    simp only [rows_join rfl wf reads (fun _ => rows_narrowed hleft (Shares.reads es).1)
      (fun _ => rows_narrowed hright (Shares.reads es).2), and_imp]
    refine and_congr_left fun _ => ?_
    obtain ⟨hl, hr⟩ := completes_of_join hc
    rw [Completes]
    simp only [isUnit_narrowed, probedScan_narrowed, after_narrowed, comparedKeys_narrowed,
      rows_narrowed hleft (Shares.reads es).1, and_imp]
    split_ifs with hunit
    · rw [Completes, if_pos hunit.1] at hc
      exact ihr hright (Shares.reads es).2 hc
    · refine and_congr (ihl hleft (Shares.reads es).1 hl) ?_
      cases hscan : probedScan r j with
      | none =>
        rw [hscan] at hr
        exact ihr hright (Shares.reads es).2 hr
      | some p =>
        rw [hscan] at hr
        exact and_iff_right hr
  | _ => exact (completes_under _ es).trans (and_iff_right hc)

/-- Two stored relations; in the second, a value under one key is no number. -/
def mixedCurrent (h : ScanHandle) : List Tuple :=
  if h.keyLen ≠ 2 then []
  else if h.name = "a" then [[.num (.int 1), .num (.int 1)], [.num (.int 2), .num (.int 2)]]
  else [[.num (.int 5), .num (.int 1)], [.str "poison", .num (.int 2)]]

lemma length_le_of_mem_mixedCurrent {h : ScanHandle} (hrow : row ∈ mixedCurrent h) :
    row.length ≤ h.keyLen := by
  unfold mixedCurrent at hrow
  split_ifs at hrow with hlen
  · cases hrow
  all_goals
    rw [not_not.mp hlen]
    rcases mem_pair.mp hrow with rfl | rfl <;> exact le_rfl

/-- A state with these two relations alone. -/
def mixedReads : PlanReads where
  stores _ := none
  deltaRule := none
  current := mixedCurrent
  asOf _ _ := []
  spans _ _ := []
  delta _ _ _ := []
  search _ _ := .ok []
  current_unique h r hr s hs heq := by
    rwa [take_of_length_le (length_le_of_mem_mixedCurrent hr),
      take_of_length_le (length_le_of_mem_mixedCurrent hs)] at heq

/-- The two relations joined on their second columns. -/
def mixedJoin : RelAlgebra :=
  .join (.scan (.stored ⟨"a", 2⟩) [⟨"x"⟩, ⟨"k"⟩] []) (.scan (.stored ⟨"b", 2⟩) [⟨"y"⟩, ⟨"**0"⟩] [])
    ⟨[⟨"k"⟩], [⟨"**0"⟩]⟩ []

/-- The rows of the join. -/
def mixedRows : List Tuple :=
  [[.num (.int 1), .num (.int 1), .num (.int 5), .num (.int 1)],
    [.num (.int 2), .num (.int 2), .str "poison", .num (.int 2)]]

/-- `x == 1 && y > 0`. -/
def guardedFilter : Expr :=
  .lazy .and [.apply .eq [.binding ⟨"x"⟩ .unresolved, .const (.num (.int 1))],
    .apply .gt [.binding ⟨"y"⟩ .unresolved, .const (.num (.int 0))]]

/-- `x == 1 && y == 5`. -/
def equalityFilter : Expr :=
  .lazy .and [.apply .eq [.binding ⟨"x"⟩ .unresolved, .const (.num (.int 1))],
    .apply .eq [.binding ⟨"y"⟩ .unresolved, .const (.num (.int 5))]]

/-- No operators beyond the named ones. -/
def noOperators : Library := fun op _ => .error (.raised op.name)

lemma mixedJoin_wellFormed : mixedJoin.WellFormed mixedReads := by
  have hscan : ∀ (name : String) (bindings : List Symbol), bindings.Nodup →
      (∀ row ∈ mixedReads.current ⟨name, 2⟩, row.length = bindings.length) →
      (scan (.stored ⟨name, 2⟩) bindings []).WellFormed mixedReads := by
    intro name bindings hnodup hwidth
    refine .scan hnodup ?_ (by simp)
    rintro row ⟨rows, hrows, hrow⟩
    cases hrows
    exact hwidth row hrow
  refine .join (hscan "a" _ (by decide) (by decide +kernel)) (hscan "b" _ (by decide)
    (by decide +kernel)) rfl (by decide) (by decide) (by decide) ?_
  rw [disjoint_iff_ne]
  decide

end RelAlgebra

end Kyzo

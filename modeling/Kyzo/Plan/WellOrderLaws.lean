import Kyzo.Plan.WellOrder

/-!
# What the well-ordering answers

Each of the three loops either places an atom whose variables are bound or leaves it waiting.  From
that follows what a successful run answers, and that exactly the settled bodies have one.
-/

namespace Kyzo

open List OrderState List.Subset Except Expr.ReadsOnly

open NormalFormAtom (binds searchBinds)

/-! ## One atom -/

variable {vars : List Symbol}

namespace OrderState

variable {s : OrderState}

lemma sees_iff : s.sees vars = true ↔ vars ⊆ s.seen := by
  simp [sees, subset_def]

lemma sees_iff_readsOnly {e : Expr} (h : e.orderBindings = .ok vars) :
    s.sees vars = true ↔ e.ReadsOnly s.seen := by
  have hbindings : e.bindings = .ok vars := mapError_eq_ok.mp h
  rw [sees_iff]
  constructor
  · intro hsub
    exact ⟨vars, hbindings, hsub⟩
  · rintro ⟨vars', hvars', hsub⟩
    cases hbindings.symm.trans hvars'
    exact hsub

variable {args : List Symbol}

lemma partlyBound_of_sees (h : s.sees args = true) : PartlyBound args s.seen := by
  rcases args with _ | ⟨v, args⟩
  · exact .inl rfl
  · exact .inr ⟨v, .head _, sees_iff.mp h (.head _)⟩

lemma ne_nil_of_not_sees (h : ¬ s.sees args = true) : args ≠ [] := by
  rintro rfl
  exact h rfl

end OrderState

lemma Unification.readsOnly_of_isConst {u : Unification} (h : u.isConst = true)
    (bound : List Symbol) : u.expr.ReadsOnly bound := by
  unfold Unification.isConst at h
  split at h
  case h_1 v heq => exact ⟨[], by rw [heq]; rfl, nil_subset _⟩
  case h_2 => cases h

variable {bound : List Symbol} {e : Expr}

lemma Expr.ReadsOnly.orderBindings_bind (h : e.ReadsOnly bound) (f : List Symbol → OrderState) :
    ∃ t, (e.orderBindings >>= fun vars => .ok (f vars)) = .ok t := by
  obtain ⟨vars, hvars, -⟩ := h
  refine ⟨f vars, ?_⟩
  rw [Expr.orderBindings, mapError_eq_ok.mpr hvars]
  rfl

variable {s t : OrderState} {atom : NormalFormAtom}

lemma place_or_defer (h : (e.orderBindings >>= fun needed =>
      .ok (if s.sees needed then s.place atom vars else s.defer atom)) = .ok t) :
    (t = s.place atom vars ∧ e.ReadsOnly s.seen) ∨ (t = s.defer atom ∧ ¬ e.ReadsOnly s.seen) := by
  obtain ⟨needed, hneeded, h⟩ := bind_ok h
  cases h
  rw [← sees_iff_readsOnly hneeded]
  split_ifs with hsees
  · exact .inl ⟨rfl, hsees⟩
  · exact .inr ⟨rfl, hsees⟩

attribute [local simp] orderRound1 orderRest

lemma orderRound1_spec (h : orderRound1 s atom = .ok t) :
    (t = s.place atom atom.binds ∧ atom.IsBinder ∧ atom.Ready s.seen) ∨
      (t = s.defer atom ∧ ¬ (atom.IsBinder ∧ atom.Ready s.seen)) := by
  cases atom with
  | rule | relation => exact .inl ⟨(ok.inj h).symm, trivial, trivial⟩
  | negatedRule | negatedRelation | predicate =>
    exact .inr ⟨(ok.inj h).symm, fun hb => hb.1⟩
  | unification u =>
    rw [orderRound1] at h
    split_ifs at h with hconst
    · exact .inl ⟨(ok.inj h).symm, trivial, u.readsOnly_of_isConst hconst _⟩
    · exact (place_or_defer h).imp (fun h => ⟨h.1, trivial, h.2⟩)
        fun h => ⟨h.1, fun hb => h.2 hb.2⟩
  | search sa =>
    exact (place_or_defer h).imp (fun h => ⟨h.1, trivial, h.2⟩)
      fun h => ⟨h.1, fun hb => h.2 hb.2⟩

lemma orderRound1_ok (h : atom.Ready bound) (s : OrderState) : ∃ t, orderRound1 s atom = .ok t := by
  cases atom with
  | rule | relation | negatedRule | negatedRelation | predicate => exact ⟨_, rfl⟩
  | unification u =>
    rw [orderRound1]
    split_ifs
    · exact ⟨_, rfl⟩
    · exact orderBindings_bind h _
  | search sa => exact orderBindings_bind h _

/-- A pass over the waiting atoms places an atom that is ready, where only a search adds its
variables, and leaves waiting what is not ready and negated atoms with an argument unseen. -/
theorem orderPending_spec (h : orderPending s atom = .ok t) :
    (t = s.place atom atom.searchBinds ∧ atom.Ready s.seen) ∨
      (t = s.defer atom ∧ (atom.Ready s.seen → atom.IsNegated)) := by
  cases atom with
  | rule | relation => cases h
  | negatedRule | negatedRelation =>
    cases h
    split_ifs with hsees
    · exact .inl ⟨rfl, partlyBound_of_sees hsees⟩
    · exact .inr ⟨rfl, fun _ => ne_nil_of_not_sees hsees⟩
  | predicate | unification | search =>
    exact (place_or_defer h).imp_right fun h => ⟨h.1, fun hr => absurd hr h.2⟩

lemma orderPending_ok (hwait : atom.MayWait) (h : atom.Ready bound)
    (s : OrderState) : ∃ t, orderPending s atom = .ok t := by
  cases atom with
  | rule | relation => exact absurd hwait id
  | negatedRule | negatedRelation => exact ⟨_, rfl⟩
  | predicate | unification | search => exact orderBindings_bind h _

variable {seen : List Symbol} {collected body : List NormalFormAtom}

lemma orderRest_spec (h : orderRest seen collected atom = .ok body) :
    body = collected ++ [atom] ∧ atom.IsNegated ∧ atom.Ready seen ∧ atom.binds = [] := by
  cases atom with
  | rule | relation | predicate | unification | search => cases h
  | negatedRule | negatedRelation =>
    rw [orderRest] at h
    split_ifs at h with hany
    obtain ⟨v, hv, hseen⟩ := any_eq_true.mp hany
    exact ⟨(ok.inj h).symm, ne_nil_of_mem hv, .inr ⟨v, hv, by simpa using hseen⟩, rfl⟩

lemma orderRest_ok (hneg : atom.IsNegated) (h : atom.Ready seen) (collected : List NormalFormAtom) :
    orderRest seen collected atom = .ok (collected ++ [atom]) := by
  cases atom with
  | rule | relation | predicate | unification | search => exact absurd hneg id
  | negatedRule | negatedRelation =>
    rcases h with h | h
    · exact absurd h hneg
    · rw [orderRest, if_pos (by simpa using h)]

/-! ## The first round -/

lemma standing_perm (bound : List Symbol) (body : List NormalFormAtom) :
    (standing bound body ++ deferred bound body).Perm body := by
  induction body generalizing bound with
  | nil => exact .refl _
  | cons atom body ih =>
    rw [standing, deferred]
    split_ifs
    · exact (ih _).cons atom
    · exact perm_middle.trans ((ih bound).cons atom)

lemma standing_wellBound (bound : List Symbol) (body : List NormalFormAtom) :
    WellBound bound (standing bound body) ∧ ∀ a ∈ standing bound body, a.IsBinder := by
  induction body generalizing bound with
  | nil => exact ⟨trivial, by simp [standing]⟩
  | cons atom body ih =>
    rw [standing]
    split_ifs with h
    · exact ⟨⟨h.2, (ih _).1⟩, forall_mem_cons.mpr ⟨h.1, (ih _).2⟩⟩
    · exact ih bound

lemma deferred_mayWait (bound : List Symbol) (body : List NormalFormAtom) :
    ∀ a ∈ deferred bound body, a.MayWait := by
  induction body generalizing bound with
  | nil => simp [deferred]
  | cons atom body ih =>
    rw [deferred]
    split_ifs with h
    · exact ih _
    · refine forall_mem_cons.mpr ⟨?_, ih bound⟩
      cases atom with
      | rule | relation => exact absurd ⟨trivial, trivial⟩ h
      | _ => trivial

/-- **The first round** places the atoms that stand and defers the others. -/
theorem round1_eq (h : body.foldlM orderRound1 s = .ok t) :
    t = ⟨s.seen ++ (standing s.seen body).flatMap binds, s.collected ++ standing s.seen body,
      s.pending ++ deferred s.seen body⟩ := by
  induction body generalizing s with
  | nil =>
    obtain rfl := ok.inj h
    simp [standing, deferred]
  | cons atom body ih =>
    obtain ⟨u, hu, h⟩ := bind_ok h
    rw [standing, deferred]
    rcases orderRound1_spec hu with ⟨rfl, hready⟩ | ⟨rfl, hnot⟩
    · rw [if_pos hready, if_pos hready]
      simpa [place] using ih h
    · rw [if_neg hnot, if_neg hnot]
      simpa [defer] using ih h

/-! ## A pass -/

/-- What a pass did with the waiting atoms: it placed some and left the others waiting. -/
structure Splits (s t : OrderState) (atoms placed waiting : List NormalFormAtom) : Prop where
  /-- The placed atoms are collected. -/
  collected_eq : t.collected = s.collected ++ placed
  /-- The others are pending. -/
  pending_eq : t.pending = s.pending ++ waiting
  /-- No atom is lost. -/
  perm : (placed ++ waiting).Perm atoms
  /-- Searches that are ready add their variables. -/
  seen_eq : t.seen = passOver s.seen atoms
  /-- Only variables of placed atoms are added. -/
  seen_bound : t.seen ⊆ s.seen ++ placed.flatMap binds
  /-- Every placed atom found its variables bound. -/
  wellBound : WellBound s.seen placed
  /-- The others wait in their order, and placed searches have their variables seen. -/
  leavesOut : LeavesOut t.seen waiting atoms
  /-- Only negated atoms wait if the others were ready in turn. -/
  rest : (∀ a ∈ waiting, a.IsNegated) ↔ ReadyInTurn s.seen atoms

namespace Splits

variable {atoms placed waiting : List NormalFormAtom}

lemma seen_subset (h : Splits s t atoms placed waiting) : s.seen ⊆ t.seen :=
  h.seen_eq ▸ subset_passOver _ _

lemma nil (s : OrderState) : Splits s s [] [] [] where
  collected_eq := by simp
  pending_eq := by simp
  perm := Perm.refl _
  seen_eq := rfl
  seen_bound := by simp
  wellBound := trivial
  leavesOut := .nil
  rest := by simp [ReadyInTurn]

lemma place (hready : atom.Ready s.seen)
    (h : Splits (s.place atom atom.searchBinds) t atoms placed waiting) :
    Splits s t (atom :: atoms) (atom :: placed) waiting := by
  have hgain : atom.gain s.seen = (s.place atom atom.searchBinds).seen := if_pos hready
  have hseen : s.seen ⊆ t.seen := List.Subset.trans (subset_append_left _ _) h.seen_subset
  exact
    { collected_eq := by simpa [OrderState.place] using h.collected_eq
      pending_eq := h.pending_eq
      perm := h.perm.cons atom
      seen_eq := by rw [h.seen_eq, ← hgain]; rfl
      seen_bound := by
        refine List.Subset.trans h.seen_bound ?_
        rw [OrderState.place, append_assoc, flatMap_cons]
        exact append_subset_append (refl _) (append_subset_append atom.searchBinds_subset (refl _))
      wellBound := ⟨hready,
        h.wellBound.mono (append_subset_append (refl _) atom.searchBinds_subset)⟩
      leavesOut := .skip (hready.mono hseen)
        (List.Subset.trans (subset_append_right s.seen _) h.seen_subset) h.leavesOut
      rest := by rw [h.rest, ReadyInTurn, hgain, and_iff_right (.inr hready)] }

lemma defer (hnot : atom.Ready s.seen → atom.IsNegated)
    (h : Splits (s.defer atom) t atoms placed waiting) :
    Splits s t (atom :: atoms) placed (atom :: waiting) where
  collected_eq := h.collected_eq
  pending_eq := by simpa [OrderState.defer] using h.pending_eq
  perm := perm_middle.trans (h.perm.cons atom)
  seen_eq := by
    change _ = passOver (atom.gain s.seen) atoms
    rw [NormalFormAtom.gain_of_isNegated hnot]
    exact h.seen_eq
  seen_bound := h.seen_bound
  wellBound := h.wellBound
  leavesOut := .keep atom h.leavesOut
  rest := by
    rw [forall_mem_cons, h.rest, ReadyInTurn, NormalFormAtom.gain_of_isNegated hnot,
      or_iff_left_of_imp hnot]
    exact Iff.rfl

end Splits

variable {atoms first waiting : List NormalFormAtom}

/-- **A pass** over the waiting atoms. -/
theorem pass_splits (h : atoms.foldlM orderPending s = .ok t) :
    ∃ placed waiting, Splits s t atoms placed waiting := by
  induction atoms generalizing s with
  | nil =>
    obtain rfl := ok.inj h
    exact ⟨[], [], .nil s⟩
  | cons atom atoms ih =>
    obtain ⟨u, hu, h⟩ := bind_ok h
    obtain ⟨placed, waiting, hsplits⟩ := ih h
    rcases orderPending_spec hu with ⟨rfl, hready⟩ | ⟨rfl, hnot⟩
    · exact ⟨atom :: placed, waiting, .place hready hsplits⟩
    · exact ⟨placed, atom :: waiting, .defer hnot hsplits⟩

lemma pass_ok (h : ∀ a ∈ atoms, a.MayWait ∧ ∃ bound, a.Ready bound) (s : OrderState) :
    ∃ t, atoms.foldlM orderPending s = .ok t :=
  foldlM_exists (fun a ha s => orderPending_ok (h a ha).1 (h a ha).2.choose_spec s) s

/-! ## The second round -/

lemma orderRound2_eq (h : orderRound2 s atom = .ok t) :
    s.pending.foldlM orderPending (place { s with pending := [] } atom atom.binds) =
      .ok t := by
  cases atom with
  | rule | relation | unification | search => exact h
  | negatedRule | negatedRelation | predicate => cases h

lemma orderRound2_ok (hbinder : atom.IsBinder) (h : s.pending.foldlM orderPending
      (place { s with pending := [] } atom atom.binds) = .ok t) :
    orderRound2 s atom = .ok t := by
  cases atom with
  | rule | relation | unification | search => exact h
  | negatedRule | negatedRelation | predicate => exact absurd hbinder id

/-- The state of the second round after some of the atoms that stand. -/
structure Settling (first waiting : List NormalFormAtom) (s : OrderState) : Prop where
  /-- What was seen is what the passes give. -/
  seen_subset : s.seen ⊆ passes first waiting
  subset_seen : passes first waiting ⊆ s.seen
  /-- The waiting atoms wait in their order. -/
  leavesOut : LeavesOut s.seen s.pending waiting
  /-- No atom is lost. -/
  perm : (s.collected ++ s.pending).Perm (first ++ waiting)
  seen_bound : s.seen ⊆ s.collected.flatMap binds
  /-- Every collected atom found its variables bound. -/
  wellBound : WellBound [] s.collected

lemma Settling.start (waiting : List NormalFormAtom) : Settling [] waiting ⟨[], [], waiting⟩ :=
  ⟨refl _, refl _, .refl _ _, .refl _, nil_subset _, trivial⟩

/-- **One atom of the second round** and the pass after it. -/
theorem Settling.step (hs : Settling first waiting s) (hready : atom.Ready s.seen)
    (h : orderRound2 s atom = .ok t) :
    Settling (first ++ [atom]) waiting t ∧
      ((∀ a ∈ t.pending, a.IsNegated) ↔
        ReadyInTurn (passes first waiting ++ atom.binds) waiting) := by
  obtain ⟨placed, left, hsplits⟩ := pass_splits (orderRound2_eq h)
  have hpending : t.pending = left := by simpa [place] using hsplits.pending_eq
  have hcollected : t.collected = s.collected ++ atom :: placed := by
    simpa [place] using hsplits.collected_eq
  have hseen : t.seen = passOver (s.seen ++ atom.binds) s.pending := hsplits.seen_eq
  have hkept : s.seen ⊆ s.seen ++ atom.binds := subset_append_left _ _
  have hnow : s.seen ++ atom.binds ⊆ (s.collected ++ [atom]).flatMap binds := by
    rw [flatMap_append, flatMap_singleton]
    exact append_subset_append hs.seen_bound (refl _)
  have hto : s.seen ++ atom.binds ⊆ passes first waiting ++ atom.binds :=
    append_subset_append hs.seen_subset (refl _)
  have hfro : passes first waiting ++ atom.binds ⊆ s.seen ++ atom.binds :=
    append_subset_append hs.subset_seen (refl _)
  have hgrown : s.seen ⊆ t.seen := List.Subset.trans hkept hsplits.seen_subset
  refine ⟨⟨?_, ?_, ?_, ?_, ?_, ?_⟩, ?_⟩
  · rw [hseen, passes_append]
    exact List.Subset.trans (hs.leavesOut.passOver_subset hkept) (passOver_mono hto)
  · rw [hseen, passes_append]
    exact List.Subset.trans (passOver_mono hfro) (hs.leavesOut.subset_passOver hkept)
  · rw [hpending]
    exact hsplits.leavesOut.trans (hs.leavesOut.mono hgrown)
  · rw [hcollected, hpending, append_assoc, cons_append, append_assoc, singleton_append]
    refine perm_middle.trans ((Perm.cons atom ?_).trans perm_middle.symm)
    exact (hsplits.perm.append_left _).trans hs.perm
  · rw [hcollected, append_cons, flatMap_append]
    exact List.Subset.trans hsplits.seen_bound (append_subset_append hnow (refl _))
  · rw [hcollected, append_cons, wellBound_append, wellBound_append]
    exact ⟨⟨hs.wellBound, hready.mono hs.seen_bound, trivial⟩, hsplits.wellBound.mono hnow⟩
  · rw [hpending, hsplits.rest]
    refine (hs.leavesOut.readyInTurn_iff hkept).trans ?_
    exact ⟨fun h => h.mono hto, fun h => h.mono hfro⟩

/-- **The second round** over the atoms that stand. -/
theorem round2_settling (hfirst : WellBound [] first)
    (h : first.foldlM orderRound2 ⟨[], [], waiting⟩ = .ok t) : Settling first waiting t := by
  induction first using reverseRecOn generalizing t with
  | nil =>
    cases h
    exact .start waiting
  | append_singleton first last ih =>
    obtain ⟨hinit, hlast, -⟩ := wellBound_append.mp hfirst
    rw [foldlM_append] at h
    obtain ⟨u, hu, h⟩ := bind_ok h
    have hu := ih hinit hu
    refine (hu.step (hlast.mono ?_) (by simpa using h)).1
    exact List.Subset.trans (binds_subset_passes _ _) hu.subset_seen

lemma round2_ok (hbinder : ∀ a ∈ atoms, a.IsBinder)
    (hpending : ∀ a ∈ s.pending, a.MayWait ∧ ∃ bound, a.Ready bound) :
    ∃ t, atoms.foldlM orderRound2 s = .ok t := by
  induction atoms generalizing s with
  | nil => exact ⟨s, rfl⟩
  | cons atom atoms ih =>
    obtain ⟨hatom, hrest⟩ := forall_mem_cons.mp hbinder
    obtain ⟨u, hu⟩ := pass_ok hpending
      (place { s with pending := [] } atom atom.binds)
    obtain ⟨placed, waiting, hsplits⟩ := pass_splits hu
    obtain ⟨t, ht⟩ := ih hrest (by
      intro a ha
      rw [hsplits.pending_eq] at ha
      exact hpending a (hsplits.leavesOut.subset (by simpa [place] using ha)))
    exact ⟨t, by rw [foldlM_cons, orderRound2_ok hatom hu]; exact ht⟩

/-! ## The whole pass -/

lemma rest_spec {atoms : List NormalFormAtom}
    (h : atoms.foldlM (orderRest seen) collected = .ok body) :
    body = collected ++ atoms ∧ WellBound seen atoms ∧
      ∀ a ∈ atoms, a.IsNegated ∧ a.Ready seen := by
  induction atoms generalizing collected with
  | nil =>
    cases h
    exact ⟨by simp, trivial, by simp⟩
  | cons atom atoms ih =>
    obtain ⟨collected', hatom, h⟩ := bind_ok h
    obtain ⟨rfl, hneg, hready, hbinds⟩ := orderRest_spec hatom
    obtain ⟨rfl, hrest, hall⟩ := ih h
    refine ⟨by simp, ⟨hready, ?_⟩, forall_mem_cons.mpr ⟨⟨hneg, hready⟩, hall⟩⟩
    rw [hbinds, append_nil]
    exact hrest

lemma rest_ok (h : ∀ a ∈ atoms, a.IsNegated ∧ a.Ready seen) (collected : List NormalFormAtom) :
    ∃ body, atoms.foldlM (orderRest seen) collected = .ok body :=
  foldlM_exists (fun a ha c => ⟨_, orderRest_ok (h a ha).1 (h a ha).2 c⟩) collected

lemma round1_ok (h : ∀ a ∈ body, ∃ bound, a.Ready bound) (s : OrderState) :
    ∃ t, body.foldlM orderRound1 s = .ok t :=
  foldlM_exists (fun a ha s => orderRound1_ok (h a ha).choose_spec s) s

lemma WellBound.exists_ready (h : WellBound bound atoms) :
    ∀ a ∈ atoms, ∃ bound', a.Ready bound' := by
  induction atoms generalizing bound with
  | nil => simp
  | cons atom atoms ih => exact forall_mem_cons.mpr ⟨⟨bound, h.1⟩, ih h.2⟩

lemma not_ready_nil (hneg : atom.IsNegated) : ¬ atom.Ready [] := by
  cases atom with
  | negatedRule | negatedRelation =>
    rintro (h | ⟨v, -, hv⟩)
    · exact hneg h
    · cases hv
  | _ => exact absurd hneg id

/-- The state at the end of the second round. -/
lemma convertToWellOrderedRule_eq {rule : NormalFormInlineRule} {r : OrderState}
    (h : ∀ a ∈ deferred [] rule.body, ∃ bound, a.Ready bound)
    (hr : (standing [] rule.body).foldlM orderRound2 ⟨[], [], deferred [] rule.body⟩ = .ok r) :
    convertToWellOrderedRule rule = (do
      let body ← r.pending.foldlM (orderRest r.seen) r.collected
      .ok { rule with body := body }) := by
  have hready : ∀ a ∈ rule.body, ∃ bound, a.Ready bound := fun a ha =>
    (mem_append.mp ((standing_perm [] rule.body).mem_iff.mpr ha)).elim
      ((standing_wellBound [] rule.body).1.exists_ready a) (h a)
  obtain ⟨r₁, hr₁⟩ := round1_ok hready ⟨[], [], []⟩
  have hround1 := round1_eq hr₁
  simp only [nil_append] at hround1
  rw [convertToWellOrderedRule, hr₁, ok_bind, hround1, hr, ok_bind]

/-- Where the second round ends, the rest is accepted if the body is settled. -/
lemma rest_iff {r : OrderState}
    (hr : (standing [] body).foldlM orderRound2 ⟨[], [], deferred [] body⟩ = .ok r) :
    (∀ a ∈ r.pending, a.IsNegated ∧ a.Ready r.seen) ↔ Settled body := by
  have hfirst := (standing_wellBound [] body).1
  have hall := round2_settling hfirst hr
  unfold Settled
  rcases eq_nil_or_concat (standing [] body) with hnil | ⟨init, last, hlast⟩
  · rw [hnil] at hr ⊢
    cases hr
    refine ⟨fun h => .inl (eq_nil_iff_forall_not_mem.mpr fun a ha => ?_), ?_⟩
    · exact not_ready_nil (h a ha).1 (h a ha).2
    · rintro (h | ⟨init, last, h, -⟩)
      · simp [h]
      · exact absurd h.symm (by simp)
  · rw [concat_eq_append] at hlast
    rw [hlast] at hr hfirst hall ⊢
    rw [foldlM_append] at hr
    obtain ⟨u, hu, hr⟩ := bind_ok hr
    obtain ⟨hinit, hready, -⟩ := wellBound_append.mp hfirst
    have hu := round2_settling hinit hu
    have hstep := (hu.step (hready.mono (List.Subset.trans (binds_subset_passes _ _)
      hu.subset_seen)) (by simpa using hr)).2
    constructor
    · intro h
      refine .inr ⟨init, last, rfl, hstep.mp fun a ha => (h a ha).1, fun a ha => ?_⟩
      rcases hall.leavesOut.mem_or_ready a ha with ha | hready
      · exact (h a ha).2.mono hall.seen_subset
      · exact hready.mono hall.seen_subset
    · rintro (h | ⟨init', last', heq, hturn, hready⟩) a ha
      · exact absurd (hall.leavesOut.subset ha) (by simp [h])
      · obtain ⟨rfl, rfl⟩ : init = init' ∧ last = last' := by simpa using heq
        exact ⟨hstep.mpr hturn a ha, (hready a (hall.leavesOut.subset ha)).mono hall.subset_seen⟩

lemma Settled.exists_ready (h : Settled body) : ∀ a ∈ deferred [] body, ∃ bound, a.Ready bound := by
  rcases h with h | ⟨_, _, -, -, h⟩
  · simp [h]
  · exact fun a ha => ⟨_, h a ha⟩

/-- **Soundness**: the answer is a permutation of a settled body, in which every atom finds its
variables bound. -/
theorem convertToWellOrderedRule_sound {rule out : NormalFormInlineRule}
    (h : convertToWellOrderedRule rule = .ok out) :
    out.head = rule.head ∧ out.aggr = rule.aggr ∧ out.body.Perm rule.body ∧
      WellBound [] out.body ∧ Settled rule.body := by
  obtain ⟨r₁, hr₁, h⟩ := bind_ok h
  obtain ⟨r₂, hr₂, h⟩ := bind_ok h
  obtain ⟨body, hbody, h⟩ := bind_ok h
  cases h
  have hround1 := round1_eq hr₁
  simp only [nil_append] at hround1
  rw [hround1] at hr₂
  have hsettling := round2_settling (standing_wellBound [] rule.body).1 hr₂
  obtain ⟨rfl, hrest, hsettled⟩ := rest_spec hbody
  refine ⟨rfl, rfl, hsettling.perm.trans (standing_perm [] rule.body), ?_,
    (rest_iff hr₂).mp hsettled⟩
  exact wellBound_append.mpr ⟨hsettling.wellBound, hrest.mono hsettling.seen_bound⟩

/-- **The conversion succeeds on the settled bodies alone.** -/
theorem convertToWellOrderedRule_ok_iff {rule : NormalFormInlineRule} :
    (∃ out, convertToWellOrderedRule rule = .ok out) ↔ Settled rule.body := by
  constructor
  · rintro ⟨out, h⟩
    exact (convertToWellOrderedRule_sound h).2.2.2.2
  · intro h
    have hready := h.exists_ready
    obtain ⟨r₂, hr₂⟩ := round2_ok (s := ⟨[], [], deferred [] rule.body⟩)
      (standing_wellBound [] rule.body).2 fun a ha => ⟨deferred_mayWait _ _ a ha, hready a ha⟩
    obtain ⟨body, hbody⟩ := rest_ok ((rest_iff hr₂).mpr h) r₂.collected
    refine ⟨{ rule with body := body }, ?_⟩
    rw [convertToWellOrderedRule_eq hready hr₂, hbody]
    rfl

end Kyzo

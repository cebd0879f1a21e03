import Kyzo.Plan.Expr

/-!
# Well-ordering of rule bodies

`convert_to_well_ordered_rule` in `exec/plan/normalize.rs`: a first round takes the atoms that bind
where they stand, a second round goes over them again and puts every deferred atom in as soon as its
variables are bound.  What it answers is always a permutation of the body in which every atom finds
its variables bound.  A unification that waited binds nothing in the second round, unlike a search
that waited, so a body that could be ordered may be refused; `Settled` says which bodies are not.
-/

namespace Kyzo

open List List.Subset

/-- Refusals of the well-ordering. -/
inductive OrderError where
  | expr (e : ExprError)
  | unsafeNegation
  | unboundVariable
  | compileInvariant (message : String)

/-- The variables of an expression, with the refusals of this pass. -/
def Expr.orderBindings (e : Expr) : Except OrderError (List Symbol) := e.bindings.mapError .expr

/-- What both rounds carry: the variables seen, the atoms collected and the atoms pending. -/
structure OrderState where
  seen : List Symbol
  collected : List NormalFormAtom
  pending : List NormalFormAtom

namespace OrderState

variable (s : OrderState)

/-- An atom is placed and binds its variables. -/
def place (atom : NormalFormAtom) (vars : List Symbol) : OrderState :=
  { s with seen := s.seen ++ vars, collected := s.collected ++ [atom] }

/-- An atom waits. -/
def defer (atom : NormalFormAtom) : OrderState :=
  { s with pending := s.pending ++ [atom] }

/-- Whether every variable was seen (`is_subset`, and `all` over arguments). -/
def sees (vars : List Symbol) : Bool := vars.all fun v => v ∈ s.seen

end OrderState

/-- The variables a relation atom binds: its arguments and the extra variable of its clause. -/
def NormalFormRelationApplyAtom.bound (v : NormalFormRelationApplyAtom) : List Symbol :=
  v.args ++ (v.validity.bind ValidityClause.extraVar).toList

section

variable (s : OrderState) (atom : NormalFormAtom)

/-- One atom of the first round. -/
def orderRound1 : Except OrderError OrderState :=
  match atom with
  | .unification u =>
    if u.isConst then .ok (s.place atom [u.binding])
    else do
      let vars ← u.expr.orderBindings
      .ok (if s.sees vars then s.place atom [u.binding] else s.defer atom)
  | .rule r => .ok (s.place atom r.args)
  | .relation v => .ok (s.place atom v.bound)
  | .search sa => do
    let needed ← sa.query.orderBindings
    .ok (if s.sees needed then s.place atom sa.ownBindings else s.defer atom)
  | .negatedRule _ | .negatedRelation _ | .predicate _ => .ok (s.defer atom)

/-- One pending atom of the second round. -/
def orderPending : Except OrderError OrderState :=
  match atom with
  | .rule _ | .relation _ =>
    .error (.compileInvariant "a positive application was left pending")
  | .negatedRule r => .ok (if s.sees r.args then s.place atom [] else s.defer atom)
  | .negatedRelation v => .ok (if s.sees v.args then s.place atom [] else s.defer atom)
  | .predicate p => do
    let vars ← p.orderBindings
    .ok (if s.sees vars then s.place atom [] else s.defer atom)
  | .unification u => do
    -- The variable bound here is not entered among those seen.
    let vars ← u.expr.orderBindings
    .ok (if s.sees vars then s.place atom [] else s.defer atom)
  | .search sa => do
    let needed ← sa.query.orderBindings
    .ok (if s.sees needed then s.place atom sa.ownBindings else s.defer atom)

/-- One atom of the second round, placed and followed by a pass over the pending atoms. -/
def orderRound2 : Except OrderError OrderState := do
  let cleared := { s with pending := [] }
  let placed ← match atom with
    | .rule r => .ok (cleared.place atom r.args)
    | .relation v => .ok (cleared.place atom v.bound)
    | .unification u => .ok (cleared.place atom [u.binding])
    | .search sa => .ok (cleared.place atom sa.ownBindings)
    | .negatedRule _ | .negatedRelation _ | .predicate _ =>
      .error (.compileInvariant "round-1 collection admitted a non-binding atom")
  s.pending.foldlM orderPending placed

end

/-- One atom still pending at the end. -/
def orderRest (seen : List Symbol) (collected : List NormalFormAtom) (atom : NormalFormAtom) :
    Except OrderError (List NormalFormAtom) :=
  match atom with
  | .rule _ | .relation _ =>
    .error (.compileInvariant "a positive application was left pending")
  | .negatedRule r =>
    if r.args.any fun v => v ∈ seen then .ok (collected ++ [atom]) else .error .unsafeNegation
  | .negatedRelation v =>
    if v.args.any fun v => v ∈ seen then .ok (collected ++ [atom]) else .error .unsafeNegation
  | .predicate _ | .unification _ | .search _ => .error .unboundVariable

def convertToWellOrderedRule (rule : NormalFormInlineRule) :
    Except OrderError NormalFormInlineRule := do
  let round1 ← rule.body.foldlM orderRound1 ⟨[], [], []⟩
  let round2 ← round1.collected.foldlM orderRound2 ⟨[], [], round1.pending⟩
  let body ← round2.pending.foldlM (orderRest round2.seen) round2.collected
  .ok { rule with body := body }

/-! ## Binding safety -/

/-- An expression reads bound variables only. -/
def Expr.ReadsOnly (e : Expr) (bound : List Symbol) : Prop :=
  ∃ vars, e.bindings = .ok vars ∧ vars ⊆ bound

/-- A negated atom has a bound argument, or none at all. -/
def PartlyBound (args bound : List Symbol) : Prop := args = [] ∨ ∃ v ∈ args, v ∈ bound

namespace NormalFormAtom

/-- The variables an atom binds. -/
def binds : NormalFormAtom → List Symbol
  | .rule r => r.args
  | .relation v => v.bound
  | .unification u => [u.binding]
  | .search sa => sa.ownBindings
  | .negatedRule _ | .negatedRelation _ | .predicate _ => []

/-- The variables a search binds. -/
def searchBinds : NormalFormAtom → List Symbol
  | .search sa => sa.ownBindings
  | _ => []

/-- The atoms that bind. -/
def IsBinder : NormalFormAtom → Prop
  | .rule _ | .relation _ | .unification _ | .search _ => True
  | .negatedRule _ | .negatedRelation _ | .predicate _ => False

/-- The atoms that may wait for others. -/
def MayWait : NormalFormAtom → Prop
  | .rule _ | .relation _ => False
  | _ => True

/-- The negated atoms that have arguments. -/
def IsNegated : NormalFormAtom → Prop
  | .negatedRule r => r.args ≠ []
  | .negatedRelation v => v.args ≠ []
  | _ => False

/-- The negated atoms that have no arguments. -/
def IsBare : NormalFormAtom → Prop
  | .negatedRule r => r.args = []
  | .negatedRelation v => v.args = []
  | _ => False

/-- The variables the atom needs are bound. -/
def Ready (bound : List Symbol) : NormalFormAtom → Prop
  | .rule _ | .relation _ => True
  | .unification u => u.expr.ReadsOnly bound
  | .search sa => sa.query.ReadsOnly bound
  | .predicate p => p.ReadsOnly bound
  | .negatedRule r => PartlyBound r.args bound
  | .negatedRelation v => PartlyBound v.args bound

end NormalFormAtom

section

variable (bound : List Symbol)

instance (e : Expr) : Decidable (e.ReadsOnly bound) :=
  match h : e.bindings with
  | .ok vars => decidable_of_iff (vars ⊆ bound) (by simp [Expr.ReadsOnly, h])
  | .error _ => isFalse (by simp [Expr.ReadsOnly, h])

instance (args : List Symbol) : Decidable (PartlyBound args bound) :=
  inferInstanceAs (Decidable (_ ∨ _))

instance : DecidablePred NormalFormAtom.IsBinder
  | .rule _ | .relation _ | .unification _ | .search _ => isTrue trivial
  | .negatedRule _ | .negatedRelation _ | .predicate _ => isFalse id

instance : DecidablePred (NormalFormAtom.Ready bound)
  | .rule _ | .relation _ => isTrue trivial
  | .unification u => inferInstanceAs (Decidable (u.expr.ReadsOnly bound))
  | .search sa => inferInstanceAs (Decidable (sa.query.ReadsOnly bound))
  | .predicate p => inferInstanceAs (Decidable (p.ReadsOnly bound))
  | .negatedRule r => inferInstanceAs (Decidable (PartlyBound r.args bound))
  | .negatedRelation v => inferInstanceAs (Decidable (PartlyBound v.args bound))

end

open NormalFormAtom (binds searchBinds)

/-- Every atom finds its variables bound by the atoms before it. -/
def WellBound : List Symbol → List NormalFormAtom → Prop
  | _, [] => True
  | bound, atom :: atoms => atom.Ready bound ∧ WellBound (bound ++ atom.binds) atoms

/-- What a well-ordered body is to have: every atom finds its variables bound by the atoms before
it, and a negated atom at least one of them. -/
def BindingSafe (atoms : List NormalFormAtom) : Prop :=
  WellBound [] atoms ∧ ∀ a ∈ atoms, ¬ a.IsBare

/-! ### Atoms that stand and atoms that wait -/

/-- The atoms that bind where they stand, their variables bound by such atoms before them. -/
def standing (bound : List Symbol) : List NormalFormAtom → List NormalFormAtom
  | [] => []
  | atom :: atoms =>
    if atom.IsBinder ∧ atom.Ready bound then atom :: standing (bound ++ atom.binds) atoms
    else standing bound atoms

/-- The other atoms of the body. -/
def deferred (bound : List Symbol) : List NormalFormAtom → List NormalFormAtom
  | [] => []
  | atom :: atoms =>
    if atom.IsBinder ∧ atom.Ready bound then deferred (bound ++ atom.binds) atoms
    else atom :: deferred bound atoms

/-- A waiting atom adds its variables if it is a search that is ready. -/
def NormalFormAtom.gain (bound : List Symbol) (atom : NormalFormAtom) : List Symbol :=
  if atom.Ready bound then bound ++ atom.searchBinds else bound

/-- One pass over waiting atoms. -/
def passOver (bound : List Symbol) (atoms : List NormalFormAtom) : List Symbol :=
  atoms.foldl NormalFormAtom.gain bound

/-- A pass over the waiting atoms after each of the first ones. -/
def passes (first waiting : List NormalFormAtom) : List Symbol :=
  first.foldl (fun bound atom => passOver (bound ++ atom.binds) waiting) []

/-- In one pass every waiting atom that is not negated is ready when its turn comes. -/
def ReadyInTurn : List Symbol → List NormalFormAtom → Prop
  | _, [] => True
  | bound, atom :: atoms =>
    (atom.IsNegated ∨ atom.Ready bound) ∧ ReadyInTurn (atom.gain bound) atoms

/-- No atom waits; or an atom stands, in the pass after the last one that does every waiting atom
but the negated ones is ready in its turn, and the negated ones are ready at its end. -/
def Settled (body : List NormalFormAtom) : Prop :=
  deferred [] body = [] ∨ ∃ init last, standing [] body = init ++ [last] ∧
    ReadyInTurn (passes init (deferred [] body) ++ last.binds) (deferred [] body) ∧
    ∀ a ∈ deferred [] body, a.Ready (passes (standing [] body) (deferred [] body))

/-! ### More bound variables -/

variable {bound bound' : List Symbol}

lemma append_subset_append {l l' m m' : List Symbol} (hl : l ⊆ l') (hm : m ⊆ m') :
    l ++ m ⊆ l' ++ m' :=
  append_subset.mpr ⟨List.Subset.trans hl (subset_append_left _ _),
    List.Subset.trans hm (subset_append_right _ _)⟩

lemma Expr.ReadsOnly.mono {e : Expr} (h : e.ReadsOnly bound)
    (hsub : bound ⊆ bound') : e.ReadsOnly bound' := by
  obtain ⟨vars, hvars, hin⟩ := h
  exact ⟨vars, hvars, List.Subset.trans hin hsub⟩

lemma PartlyBound.mono {args bound bound' : List Symbol} (h : PartlyBound args bound)
    (hsub : bound ⊆ bound') : PartlyBound args bound' := by
  rcases h with h | ⟨v, hv, hbound⟩
  · exact .inl h
  · exact .inr ⟨v, hv, hsub hbound⟩

namespace NormalFormAtom

variable {atom : NormalFormAtom}

lemma Ready.mono (h : atom.Ready bound) (hsub : bound ⊆ bound') : atom.Ready bound' := by
  cases atom with
  | rule | relation => trivial
  | unification | search | predicate => exact Expr.ReadsOnly.mono h hsub
  | negatedRule | negatedRelation => exact PartlyBound.mono h hsub

lemma searchBinds_subset (atom : NormalFormAtom) : atom.searchBinds ⊆ atom.binds := by
  cases atom with
  | search sa => exact refl _
  | _ => exact nil_subset _

lemma subset_gain (bound : List Symbol) (atom : NormalFormAtom) : bound ⊆ atom.gain bound := by
  unfold gain
  split
  · exact subset_append_left _ _
  · exact refl _

lemma gain_mono (hsub : bound ⊆ bound') : atom.gain bound ⊆ atom.gain bound' := by
  by_cases hready : atom.Ready bound
  · rw [gain, gain, if_pos hready, if_pos (hready.mono hsub)]
    exact append_subset_append hsub (refl _)
  · rw [gain, if_neg hready]
    exact List.Subset.trans hsub (subset_gain _ _)

lemma gain_subset (h : atom.searchBinds ⊆ bound) : atom.gain bound ⊆ bound := by
  unfold gain
  split
  · exact append_subset.mpr ⟨refl _, h⟩
  · exact refl _

lemma gain_of_isNegated (h : atom.Ready bound → atom.IsNegated) : atom.gain bound = bound := by
  unfold gain
  split
  · rename_i hready
    cases atom with
    | negatedRule | negatedRelation => simp [searchBinds]
    | _ => exact absurd (h hready) id
  · rfl

end NormalFormAtom

variable {atoms : List NormalFormAtom}

lemma WellBound.mono (h : WellBound bound atoms) (hsub : bound ⊆ bound') :
    WellBound bound' atoms := by
  induction atoms generalizing bound bound' with
  | nil => trivial
  | cons atom atoms ih =>
    exact ⟨h.1.mono hsub, ih h.2 (append_subset_append hsub (refl _))⟩

lemma ReadyInTurn.mono (h : ReadyInTurn bound atoms) (hsub : bound ⊆ bound') :
    ReadyInTurn bound' atoms := by
  induction atoms generalizing bound bound' with
  | nil => trivial
  | cons atom atoms ih =>
    exact ⟨h.1.imp_right (·.mono hsub), ih h.2 (NormalFormAtom.gain_mono hsub)⟩

lemma passOver_mono (hsub : bound ⊆ bound') : passOver bound atoms ⊆ passOver bound' atoms := by
  induction atoms generalizing bound bound' with
  | nil => exact hsub
  | cons atom atoms ih => exact ih (NormalFormAtom.gain_mono hsub)

lemma subset_passOver (bound : List Symbol) (atoms : List NormalFormAtom) :
    bound ⊆ passOver bound atoms := by
  induction atoms generalizing bound with
  | nil => exact refl _
  | cons atom atoms ih => exact List.Subset.trans (atom.subset_gain bound) (ih _)

lemma passes_append (first waiting : List NormalFormAtom) (last : NormalFormAtom) :
    passes (first ++ [last]) waiting = passOver (passes first waiting ++ last.binds) waiting := by
  simp [passes]

lemma binds_subset_passes (first waiting : List NormalFormAtom) :
    first.flatMap binds ⊆ passes first waiting := by
  induction first using reverseRecOn with
  | nil => exact nil_subset _
  | append_singleton first last ih =>
    rw [flatMap_append, flatMap_singleton, passes_append]
    exact List.Subset.trans (append_subset_append ih (refl _)) (subset_passOver _ _)

lemma wellBound_append {bound : List Symbol} {atoms' : List NormalFormAtom} :
    WellBound bound (atoms ++ atoms') ↔
      WellBound bound atoms ∧ WellBound (bound ++ atoms.flatMap binds) atoms' := by
  induction atoms generalizing bound with
  | nil => simp [WellBound]
  | cons atom atoms ih =>
    rw [cons_append, WellBound, WellBound, ih, flatMap_cons, ← append_assoc, and_assoc]

/-- The first list is the second without some atoms that are ready and whose search variables are
bound. -/
inductive LeavesOut (bound : List Symbol) : List NormalFormAtom → List NormalFormAtom → Prop
  | nil : LeavesOut bound [] []
  | keep (atom : NormalFormAtom) {waiting atoms : List NormalFormAtom} :
      LeavesOut bound waiting atoms → LeavesOut bound (atom :: waiting) (atom :: atoms)
  | skip {atom : NormalFormAtom} {waiting atoms : List NormalFormAtom} (ready : atom.Ready bound)
      (gained : atom.searchBinds ⊆ bound) :
      LeavesOut bound waiting atoms → LeavesOut bound waiting (atom :: atoms)

namespace LeavesOut

variable {waiting atoms : List NormalFormAtom}

lemma mono (h : LeavesOut bound waiting atoms) (hsub : bound ⊆ bound') :
    LeavesOut bound' waiting atoms := by
  induction h with
  | nil => exact .nil
  | keep atom _ ih => exact .keep atom ih
  | skip ready gained _ ih => exact .skip (ready.mono hsub) (List.Subset.trans gained hsub) ih

protected lemma refl (bound : List Symbol) (atoms : List NormalFormAtom) :
    LeavesOut bound atoms atoms := by
  induction atoms with
  | nil => exact .nil
  | cons atom atoms ih => exact .keep atom ih

protected lemma trans {l₁ l₂ l₃ : List NormalFormAtom}
    (h₁₂ : LeavesOut bound l₁ l₂) (h₂₃ : LeavesOut bound l₂ l₃) : LeavesOut bound l₁ l₃ := by
  induction h₂₃ generalizing l₁ with
  | nil => exact h₁₂
  | keep atom _ ih =>
    cases h₁₂ with
    | keep _ h => exact .keep atom (ih h)
    | skip ready gained h => exact .skip ready gained (ih h)
  | skip ready gained _ ih => exact .skip ready gained (ih h₁₂)

section

variable (h : LeavesOut bound waiting atoms)

include h

protected lemma subset : waiting ⊆ atoms := by
  induction h with
  | nil => exact fun _ h => h
  | keep atom _ ih => exact cons_subset_cons atom ih
  | skip _ _ _ ih => exact subset_cons_of_subset _ ih

lemma mem_or_ready : ∀ a ∈ atoms, a ∈ waiting ∨ a.Ready bound := by
  induction h with
  | nil => simp
  | keep atom _ ih =>
    exact forall_mem_cons.mpr ⟨.inl (.head _), fun a ha => (ih a ha).imp_left (.tail _)⟩
  | skip ready _ _ ih => exact forall_mem_cons.mpr ⟨.inr ready, ih⟩

lemma passOver_subset (hsub : bound ⊆ bound') :
    passOver bound' waiting ⊆ passOver bound' atoms := by
  induction h generalizing bound' with
  | nil => exact refl _
  | keep atom _ ih => exact ih (List.Subset.trans hsub (atom.subset_gain _))
  | @skip atom _ atoms _ _ _ ih =>
    change _ ⊆ passOver (atom.gain bound') atoms
    exact List.Subset.trans (ih hsub) (passOver_mono (atom.subset_gain _))

lemma subset_passOver (hsub : bound ⊆ bound') :
    passOver bound' atoms ⊆ passOver bound' waiting := by
  induction h generalizing bound' with
  | nil => exact refl _
  | keep atom _ ih => exact ih (List.Subset.trans hsub (atom.subset_gain _))
  | @skip atom _ atoms _ gained _ ih =>
    change passOver (atom.gain bound') atoms ⊆ _
    refine List.Subset.trans (passOver_mono ?_) (ih hsub)
    exact NormalFormAtom.gain_subset (List.Subset.trans gained hsub)

/-- What is left out does not change whether the others are ready in turn. -/
theorem readyInTurn_iff (hsub : bound ⊆ bound') :
    ReadyInTurn bound' waiting ↔ ReadyInTurn bound' atoms := by
  induction h generalizing bound' with
  | nil => exact Iff.rfl
  | keep atom _ ih =>
    exact and_congr_right fun _ => ih (List.Subset.trans hsub (atom.subset_gain _))
  | skip ready gained _ ih =>
    rw [ih hsub]
    exact ⟨fun h => ⟨.inr (ready.mono hsub), h.mono (NormalFormAtom.subset_gain _ _)⟩, fun h =>
      h.2.mono (NormalFormAtom.gain_subset (List.Subset.trans gained hsub))⟩

end

end LeavesOut

end Kyzo

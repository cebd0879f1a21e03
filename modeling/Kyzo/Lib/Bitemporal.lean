import Mathlib

/-!
# Resolution on two time axes

Versions of facts stand at a valid time and a system time.  At a pair of query times a fact is
decided by one of its versions: instants are tried from the latest one, the newest visible version
of an instant heads it, and an instant that is headed by no claim falls through to the one before.

The lemmas say which versions a scan may leave out without a change to the answer.
-/

namespace Kyzo

open List

/-- What a version says about its fact. -/
inductive Stance where
  | holds
  | ended
  | unrecorded
  deriving DecidableEq

/-- How versions of type `ρ` are read. -/
structure Timeline (ρ φ τ : Type*) where
  fact : ρ → φ
  valid : ρ → τ
  sys : ρ → τ
  stance : ρ → Stance

namespace Timeline

variable {ρ φ τ : Type*} [LinearOrder τ] [DecidableEq φ] (T : Timeline ρ φ τ) (validAt sysAt : τ)

/-- A version at or before both query times. -/
def Visible (r : ρ) : Prop := T.valid r ≤ validAt ∧ T.sys r ≤ sysAt

/-- The newest visible version of its instant. -/
def Heads (rows : List ρ) (r : ρ) : Prop :=
  T.Visible validAt sysAt r ∧ ∀ r' ∈ rows, T.fact r' = T.fact r → T.valid r' = T.valid r →
    T.Visible validAt sysAt r' → T.sys r' ≤ T.sys r

/-- The version that decides its fact: it heads its instant with a claim, and every later instant is
headed by none. -/
def Governs (rows : List ρ) (r : ρ) : Prop :=
  T.Heads validAt sysAt rows r ∧ T.stance r ≠ .unrecorded ∧
    ∀ r' ∈ rows, T.fact r' = T.fact r → T.Heads validAt sysAt rows r' → T.valid r < T.valid r' →
      T.stance r' = .unrecorded

instance (r : ρ) : Decidable (T.Visible validAt sysAt r) :=
  inferInstanceAs (Decidable (_ ∧ _))

instance (rows : List ρ) (r : ρ) : Decidable (T.Heads validAt sysAt rows r) :=
  inferInstanceAs (Decidable (_ ∧ _))

instance (rows : List ρ) (r : ρ) : Decidable (T.Governs validAt sysAt rows r) :=
  inferInstanceAs (Decidable (_ ∧ _ ∧ _))

/-- The versions that make their facts hold. -/
def holding (rows : List ρ) : List ρ :=
  rows.filter fun r => T.Governs validAt sysAt rows r ∧ T.stance r = .holds

variable {T validAt sysAt} {rows : List ρ} {keep : ρ → Bool}

lemma holding_filter
    (hdrop : ∀ d ∈ rows, keep d = false → T.Governs validAt sysAt rows d → T.stance d ≠ .holds)
    (hsame : ∀ d ∈ rows, keep d = true →
      (T.Governs validAt sysAt rows d ↔ T.Governs validAt sysAt (rows.filter keep) d)) :
    T.holding validAt sysAt rows = T.holding validAt sysAt (rows.filter keep) := by
  rw [holding, holding, filter_filter]
  refine filter_congr fun d hd => ?_
  rcases hkeep : keep d
  · have hnot : ¬(T.Governs validAt sysAt rows d ∧ T.stance d = .holds) :=
      fun h => hdrop d hd hkeep h.1 h.2
    simp [hnot]
  · simp [hsame d hd hkeep]

omit [DecidableEq φ] in
lemma heads_filter {r : ρ}
    (h : ∀ d ∈ rows, T.fact d = T.fact r → T.valid d = T.valid r → T.Visible validAt sysAt d →
      keep d = true) :
    T.Heads validAt sysAt (rows.filter keep) r ↔ T.Heads validAt sysAt rows r := by
  refine and_congr_right fun _ => ⟨fun hheads d hd hfact hvalid hvis => ?_, fun hheads d hd => ?_⟩
  · exact hheads d (mem_filter.mpr ⟨hd, h d hd hfact hvalid hvis⟩) hfact hvalid hvis
  · exact hheads d (mem_filter.mp hd).1

/-- **Invisible versions** may be left out. -/
theorem holding_of_invisible (h : ∀ d ∈ rows, keep d = false → ¬T.Visible validAt sysAt d) :
    T.holding validAt sysAt rows = T.holding validAt sysAt (rows.filter keep) := by
  have hkeep : ∀ d ∈ rows, T.Visible validAt sysAt d → keep d = true :=
    fun d hd hvis => by_contra fun hdrop => h d hd (Bool.not_eq_true _ ▸ hdrop) hvis
  have hheads : ∀ r, T.Heads validAt sysAt (rows.filter keep) r ↔ T.Heads validAt sysAt rows r :=
    fun r => heads_filter fun d hd _ _ => hkeep d hd
  refine holding_filter (fun d hd hdrop hgov => absurd hgov.1.1 (h d hd hdrop)) fun d _ _ => ?_
  refine and_congr (hheads d).symm (and_congr_right fun _ => ?_)
  constructor
  · intro hlater d' hd' hfact hhead
    exact hlater d' (mem_filter.mp hd').1 hfact ((hheads d').mp hhead)
  · intro hlater d' hd' hfact hhead
    exact hlater d' (mem_filter.mpr ⟨hd', hkeep d' hd' hhead.1⟩) hfact ((hheads d').mpr hhead)

section

variable {r d : ρ} (hr : r ∈ rows) (hd : d ∈ rows) (hfact : T.fact d = T.fact r)
include hr hd hfact

omit [DecidableEq φ] in
lemma sys_eq_of_heads (hvalid : T.valid d = T.valid r) (hrhead : T.Heads validAt sysAt rows r)
    (hdhead : T.Heads validAt sysAt rows d) : T.sys d = T.sys r :=
  le_antisymm (hrhead.2 d hd hfact hvalid hdhead.1)
    (hdhead.2 r hr hfact.symm hvalid.symm hrhead.1)

omit [DecidableEq φ] in
lemma valid_eq_of_governs
    (hrgov : T.Governs validAt sysAt rows r) (hdgov : T.Governs validAt sysAt rows d) :
    T.valid d = T.valid r := by
  rcases lt_trichotomy (T.valid d) (T.valid r) with hlt | heq | hlt
  · exact absurd (hdgov.2.2 r hr hfact.symm hrgov.1 hlt) hrgov.2.1
  · exact heq
  · exact absurd (hrgov.2.2 d hd hfact hdgov.1 hlt) hdgov.2.1

end

section Head

variable {r : ρ} (hr : r ∈ rows) (hhead : T.Heads validAt sysAt rows r)
  (huniq : ∀ d ∈ rows, T.fact d = T.fact r → T.valid d = T.valid r → T.sys d = T.sys r → d = r)

include hr hhead huniq

omit [DecidableEq φ] in
lemma eq_of_heads {d : ρ} (hd : d ∈ rows) (hfact : T.fact d = T.fact r)
    (hvalid : T.valid d = T.valid r) (hdhead : T.Heads validAt sysAt rows d) : d = r :=
  huniq d hd hfact hvalid (sys_eq_of_heads hr hd hfact hvalid hhead hdhead)

/-- **An instant that is headed by no claim** may be left out. -/
theorem holding_of_unrecorded (hstance : T.stance r = .unrecorded)
    (h : ∀ d ∈ rows, keep d = false ↔ T.fact d = T.fact r ∧ T.valid d = T.valid r) :
    T.holding validAt sysAt rows = T.holding validAt sysAt (rows.filter keep) := by
  have hheads : ∀ d ∈ rows, keep d = true →
      (T.Heads validAt sysAt (rows.filter keep) d ↔ T.Heads validAt sysAt rows d) := by
    intro d hd hkeep
    refine heads_filter fun d' hd' hfact hvalid _ => by_contra fun hdrop => ?_
    obtain ⟨hfact', hvalid'⟩ := (h d' hd').mp (Bool.not_eq_true _ ▸ hdrop)
    have hdrop' := (h d hd).mpr ⟨hfact.symm.trans hfact', hvalid.symm.trans hvalid'⟩
    exact Bool.false_ne_true (hdrop'.symm.trans hkeep)
  refine holding_filter (fun d hd hdrop hgov => ?_) fun d hd hkeep => ?_
  · obtain ⟨hfact, hvalid⟩ := (h d hd).mp hdrop
    obtain rfl := eq_of_heads hr hhead huniq hd hfact hvalid hgov.1
    exact absurd hstance hgov.2.1
  · refine and_congr (hheads d hd hkeep).symm (and_congr_right fun _ => ?_)
    constructor
    · intro hlater d' hd' hfact hhead'
      obtain ⟨hmem, hkeep'⟩ := mem_filter.mp hd'
      exact hlater d' hmem hfact ((hheads d' hmem hkeep').mp hhead')
    · intro hlater d' hd' hfact hhead'
      rcases hkeep' : keep d'
      · -- A version left out heads its instant only if it is the one without a claim.
        obtain ⟨hfact', hvalid'⟩ := (h d' hd').mp hkeep'
        obtain rfl := eq_of_heads hr hhead huniq hd' hfact' hvalid' hhead'
        exact fun _ => hstance
      · exact hlater d' (mem_filter.mpr ⟨hd', hkeep'⟩) hfact
          ((hheads d' hd' hkeep').mpr hhead')

variable (hstance : T.stance r ≠ .unrecorded)
  (hlatest : ∀ d ∈ rows, T.fact d = T.fact r → T.valid d ≤ T.valid r)

include hstance hlatest

omit [DecidableEq φ] hr huniq in
lemma governs_of_latest : T.Governs validAt sysAt rows r :=
  ⟨hhead, hstance, fun d hd hfact _ hlt => absurd (hlatest d hd hfact) (not_le.mpr hlt)⟩

omit [DecidableEq φ] in
lemma eq_of_governs {d : ρ} (hd : d ∈ rows) (hfact : T.fact d = T.fact r)
    (hgov : T.Governs validAt sysAt rows d) : d = r := by
  rcases lt_or_eq_of_le (hlatest d hd hfact) with hlt | heq
  · exact absurd (hgov.2.2 r hr hfact.symm hhead hlt) hstance
  · exact eq_of_heads hr hhead huniq hd hfact heq hgov.1

omit [DecidableEq φ] hr hhead huniq hstance hlatest in
lemma governs_filter_of_fact (h : ∀ d ∈ rows, keep d = false ↔ T.fact d = T.fact r) {d : ρ}
    (hd : d ∈ rows) (hkeep : keep d = true) :
    T.Governs validAt sysAt rows d ↔ T.Governs validAt sysAt (rows.filter keep) d := by
  have hother : ∀ d' ∈ rows, T.fact d' = T.fact d → keep d' = true := by
    intro d' hd' hfact
    by_contra hdrop
    have hfact' := (h d' hd').mp (Bool.not_eq_true _ ▸ hdrop)
    exact Bool.false_ne_true (((h d hd).mpr (hfact.symm.trans hfact')).symm.trans hkeep)
  have hheads : ∀ d' ∈ rows, T.fact d' = T.fact d →
      (T.Heads validAt sysAt (rows.filter keep) d' ↔ T.Heads validAt sysAt rows d') :=
    fun d' _ hfact => heads_filter fun d'' hd'' hfact' _ _ =>
      hother d'' hd'' (hfact'.trans hfact)
  refine and_congr (hheads d hd rfl).symm (and_congr_right fun _ => ?_)
  constructor
  · intro hlater d' hd' hfact hhead'
    have hmem := (mem_filter.mp hd').1
    exact hlater d' hmem hfact ((hheads d' hmem hfact).mp hhead')
  · intro hlater d' hd' hfact hhead'
    exact hlater d' (mem_filter.mpr ⟨hd', hother d' hd' hfact⟩) hfact
      ((hheads d' hd' hfact).mpr hhead')

/-- **A fact that has ended** may be left out. -/
theorem holding_of_ended (hended : T.stance r = .ended)
    (h : ∀ d ∈ rows, keep d = false ↔ T.fact d = T.fact r) :
    T.holding validAt sysAt rows = T.holding validAt sysAt (rows.filter keep) := by
  refine holding_filter (fun d hd hdrop hgov => ?_) fun d hd => governs_filter_of_fact h hd
  obtain rfl := eq_of_governs hr hhead huniq hstance hlatest hd ((h d hd).mp hdrop) hgov
  rw [hended]
  decide

end Head

/-- **A fact that holds** is answered by its head, and its versions may be left out of the rest. -/
theorem holding_of_holds {r : ρ} {rest : List ρ} (hhead : T.Heads validAt sysAt (r :: rest) r)
    (huniq : ∀ d ∈ rest, ¬(T.fact d = T.fact r ∧ T.valid d = T.valid r ∧ T.sys d = T.sys r))
    (hholds : T.stance r = .holds)
    (hlatest : ∀ d ∈ r :: rest, T.fact d = T.fact r → T.valid d ≤ T.valid r)
    (h : ∀ d ∈ r :: rest, keep d = false ↔ T.fact d = T.fact r) :
    T.holding validAt sysAt (r :: rest) =
      r :: T.holding validAt sysAt ((r :: rest).filter keep) := by
  have hr : r ∈ r :: rest := (.head _)
  have hclaim : T.stance r ≠ .unrecorded := by
    rw [hholds]
    decide
  have huniq' : ∀ d ∈ r :: rest, T.fact d = T.fact r → T.valid d = T.valid r →
      T.sys d = T.sys r → d = r := by
    intro d hd hfact hvalid hsys
    rcases mem_cons.mp hd with heq | hmem
    · exact heq
    · exact absurd ⟨hfact, hvalid, hsys⟩ (huniq d hmem)
  have hgov := governs_of_latest hhead hclaim hlatest
  rw [holding, filter_cons_of_pos (by simp [hgov, hholds]), holding, filter_filter,
    filter_cons_of_neg (by simp [(h r hr).mpr rfl])]
  congr 1
  refine filter_congr fun d hd => ?_
  have hmem := mem_cons_of_mem r hd
  rcases hkeep : keep d
  · have hnot : ¬T.Governs validAt sysAt (r :: rest) d := by
      intro hgov'
      obtain rfl := eq_of_governs hr hhead huniq' hclaim hlatest hmem ((h d hmem).mp hkeep) hgov'
      exact huniq d hd ⟨rfl, rfl, rfl⟩
    simp [hnot]
  · simp [governs_filter_of_fact h hmem hkeep]

end Timeline

end Kyzo

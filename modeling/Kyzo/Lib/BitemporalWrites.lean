import Kyzo.Lib.Bitemporal

/-!
# Writes on two time axes

A write puts a version at its coordinates, over one that stood there.  What is held of a fact at a
pair of query times depends on the versions of the fact that are visible there; a write that no
version of its fact is later than decides the fact wherever it is visible.
-/

namespace Kyzo

namespace Timeline

variable {ρ φ τ : Type*} [LinearOrder τ] [DecidableEq φ] (T : Timeline ρ φ τ)

/-- Two versions at the same coordinates. -/
def Same (a b : ρ) : Prop := T.fact a = T.fact b ∧ T.valid a = T.valid b ∧ T.sys a = T.sys b

instance (a b : ρ) : Decidable (T.Same a b) := inferInstanceAs (Decidable (_ ∧ _ ∧ _))

/-- The versions after a write. -/
def write (r : ρ) (rows : List ρ) : List ρ := r :: rows.filter fun d => ¬ T.Same d r

/-- One version at each coordinate. -/
def Distinct (rows : List ρ) : Prop := ∀ a ∈ rows, ∀ b ∈ rows, T.Same a b → a = b

/-- A version that is held at a pair of query times. -/
def Held (validAt sysAt : τ) (rows : List ρ) (r : ρ) : Prop :=
  r ∈ rows ∧ T.Governs validAt sysAt rows r ∧ T.stance r = .holds

/-- Every version of a fact is at or before an instant and a system time. -/
def Within (rows : List ρ) (fact : φ) (valid sys : τ) : Prop :=
  ∀ d ∈ rows, T.fact d = fact → T.valid d ≤ valid ∧ T.sys d ≤ sys

variable {T} {rows rows' : List ρ} {r d : ρ} {validAt sysAt validAt' sysAt' : τ}

lemma mem_write : d ∈ T.write r rows ↔ d = r ∨ (d ∈ rows ∧ ¬ T.Same d r) := by
  rw [write, List.mem_cons, List.mem_filter, decide_eq_true_eq]

lemma forall_mem_write {P : ρ → Prop} (hr : P r) (h : ∀ d ∈ rows, P d) :
    ∀ d ∈ T.write r rows, P d := by
  intro d hd
  obtain rfl | ⟨hd, -⟩ := mem_write.mp hd
  · exact hr
  · exact h d hd

lemma mem_holding : d ∈ T.holding validAt sysAt rows ↔ T.Held validAt sysAt rows d := by
  rw [holding, List.mem_filter, decide_eq_true_eq, Held]

lemma Distinct.write (h : T.Distinct rows) (r : ρ) : T.Distinct (T.write r rows) := by
  intro a ha b hb hsame
  obtain rfl | ⟨ha, hna⟩ := mem_write.mp ha
  · obtain rfl | ⟨-, hnb⟩ := mem_write.mp hb
    · rfl
    · exact absurd ⟨hsame.1.symm, hsame.2.1.symm, hsame.2.2.symm⟩ hnb
  · obtain rfl | ⟨hb, -⟩ := mem_write.mp hb
    · exact absurd hsame hna
    · exact h a ha b hb hsame

variable {fact : φ} {valid sys : τ}

lemma Within.write (h : T.Within rows fact valid sys)
    (hr : T.fact r = fact → T.valid r ≤ valid ∧ T.sys r ≤ sys) :
    T.Within (T.write r rows) fact valid sys :=
  forall_mem_write hr h

omit [DecidableEq φ] in
/-- **What is held of a fact depends on its visible versions.** -/
theorem held_congr (h : ∀ d, T.fact d = fact →
      (d ∈ rows ∧ T.Visible validAt sysAt d ↔ d ∈ rows' ∧ T.Visible validAt' sysAt' d))
    (hfact : T.fact r = fact) : T.Held validAt sysAt rows r ↔ T.Held validAt' sysAt' rows' r := by
  -- The statement is symmetric, so one direction is enough.
  suffices hone : ∀ {rows rows' : List ρ} {v s v' s' : τ}, (∀ d, T.fact d = fact →
      (d ∈ rows ∧ T.Visible v s d ↔ d ∈ rows' ∧ T.Visible v' s' d)) →
      T.Held v s rows r → T.Held v' s' rows' r from
    ⟨hone h, hone fun d hd => (h d hd).symm⟩
  intro rows rows' v s v' s' hsame ⟨hmem, ⟨⟨hvisible, hnewest⟩, hstance, hlater⟩, hholds⟩
  obtain ⟨hmem', hvisible'⟩ := (hsame r hfact).mp ⟨hmem, hvisible⟩
  refine ⟨hmem', ⟨⟨hvisible', fun d hd hdf hdv hdvis => ?_⟩, hstance, fun d hd hdf hhead hlt => ?_⟩,
    hholds⟩
  · obtain ⟨hd, hdvis⟩ := (hsame d (hdf.trans hfact)).mpr ⟨hd, hdvis⟩
    exact hnewest d hd hdf hdv hdvis
  · obtain ⟨hdrows, hdvis⟩ := (hsame d (hdf.trans hfact)).mpr ⟨hd, hhead.1⟩
    refine hlater d hdrows hdf ⟨hdvis, fun e he hef hev hevis => ?_⟩ hlt
    obtain ⟨he', hevis'⟩ := (hsame e (hef.trans (hdf.trans hfact))).mp ⟨he, hevis⟩
    exact hhead.2 e he' hef hev hevis'

lemma held_write_of_ne (hne : T.fact d ≠ T.fact r) :
    T.Held validAt sysAt (T.write r rows) d ↔ T.Held validAt sysAt rows d := by
  refine held_congr (fun e he => ?_) rfl
  have hfact : T.fact e ≠ T.fact r := he ▸ hne
  rw [mem_write]
  constructor
  · rintro ⟨rfl | ⟨hmem, -⟩, hvis⟩
    · exact absurd rfl hfact
    · exact ⟨hmem, hvis⟩
  · rintro ⟨hmem, hvis⟩
    exact ⟨.inr ⟨hmem, fun hsame => hfact hsame.1⟩, hvis⟩

lemma held_write_of_invisible (hr : ¬ T.Visible validAt sysAt r) :
    T.Held validAt sysAt (T.write r rows) d ↔ T.Held validAt sysAt rows d := by
  refine held_congr (fun e _ => ?_) rfl
  rw [mem_write]
  constructor
  · rintro ⟨rfl | ⟨hmem, -⟩, hvis⟩
    · exact absurd hvis hr
    · exact ⟨hmem, hvis⟩
  · rintro ⟨hmem, hvis⟩
    refine ⟨.inr ⟨hmem, fun hsame => hr ?_⟩, hvis⟩
    rw [Visible, ← hsame.2.1, ← hsame.2.2]
    exact hvis

/-- **A write that no version of its fact is later than decides the fact** wherever it is
visible. -/
theorem held_write_self (hr : T.Visible validAt sysAt r) (hstance : T.stance r ≠ .unrecorded)
    (hwithin : T.Within rows (T.fact r) (T.valid r) (T.sys r)) (hfact : T.fact d = T.fact r) :
    T.Held validAt sysAt (T.write r rows) d ↔ d = r ∧ T.stance r = .holds := by
  have hall : T.Within (T.write r rows) (T.fact r) (T.valid r) (T.sys r) :=
    hwithin.write fun _ => ⟨le_rfl, le_rfl⟩
  have hself : r ∈ T.write r rows := mem_write.mpr (.inl rfl)
  have hheads : T.Heads validAt sysAt (T.write r rows) r :=
    ⟨hr, fun e he hef _ _ => (hall e he hef).2⟩
  constructor
  · rintro ⟨hmem, ⟨⟨hvis, hnewest⟩, -, hlater⟩, hholds⟩
    obtain rfl | ⟨hrows, hapart⟩ := mem_write.mp hmem
    · exact ⟨rfl, hholds⟩
    obtain ⟨hvalid, hsys⟩ := hwithin d hrows hfact
    obtain hlt | heq := lt_or_eq_of_le hvalid
    · exact absurd (hlater r hself hfact.symm hheads hlt) hstance
    · have hle := hnewest r hself hfact.symm heq.symm hr
      exact absurd ⟨hfact, heq, le_antisymm hsys hle⟩ hapart
  · rintro ⟨rfl, hholds⟩
    refine ⟨hself, ⟨hheads, hstance, fun e he hef _ hlt => ?_⟩, hholds⟩
    exact absurd hlt (not_lt.mpr (hall e he hef).1)

omit [DecidableEq φ] in
lemma held_of_within (hwithin : T.Within rows fact valid sys) (hvalid : valid ≤ validAt)
    (hsys : sys ≤ sysAt) (hvalid' : valid ≤ validAt') (hsys' : sys ≤ sysAt')
    (hfact : T.fact r = fact) : T.Held validAt sysAt rows r ↔ T.Held validAt' sysAt' rows r := by
  refine held_congr (fun d hd => ?_) hfact
  constructor
  · rintro ⟨hmem, -⟩
    obtain ⟨hv, hs⟩ := hwithin d hmem hd
    exact ⟨hmem, hv.trans hvalid', hs.trans hsys'⟩
  · rintro ⟨hmem, -⟩
    obtain ⟨hv, hs⟩ := hwithin d hmem hd
    exact ⟨hmem, hv.trans hvalid, hs.trans hsys⟩

omit [DecidableEq φ] in
lemma Distinct.eq_of_held (h : T.Distinct rows) (hr : T.Held validAt sysAt rows r)
    (hd : T.Held validAt sysAt rows d) (hfact : T.fact d = T.fact r) : d = r := by
  have hvalid := valid_eq_of_governs hr.1 hd.1 hfact hr.2.1 hd.2.1
  have hsys := sys_eq_of_heads hr.1 hd.1 hfact hvalid hr.2.1.1 hd.2.1.1
  exact h d hd.1 r hr.1 ⟨hfact, hvalid, hsys⟩

end Timeline

end Kyzo

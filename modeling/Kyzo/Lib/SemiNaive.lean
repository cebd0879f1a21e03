import Mathlib

/-!
# Semi-naive evaluation

Rules over named relations.  A body reads one relation at each of its occurrences; a round of
semi-naive evaluation narrows one occurrence at a time to what the last round added.  If every
derivation takes one row from each occurrence, a round adds what a naive round adds, and a run that
stops has reached the least fixpoint of the immediate consequences.
-/

namespace Kyzo.SemiNaive

variable {ι κ α : Type*}

/-- A body: the relation at each occurrence, and what it derives from rows at the occurrences. -/
structure Body (ι κ α : Type*) where
  occurrences : List (κ × ι)
  derive : (κ → Set α) → Set α

namespace Body

variable (b : Body ι κ α)

/-- What the occurrences read. -/
def inputs (rel : ι → Set α) (o : κ) : Set α := {t | ∃ n, (o, n) ∈ b.occurrences ∧ t ∈ rel n}

/-- More rows derive more. -/
def Monotone : Prop :=
  ∀ r r' : κ → Set α, (∀ e ∈ b.occurrences, r e.1 ⊆ r' e.1) → b.derive r ⊆ b.derive r'

/-- A derivation takes one row from each occurrence. -/
def OneRowEach : Prop :=
  ∀ (r : κ → Set α) (t : α), t ∈ b.derive r →
    ∃ row : κ → α, (∀ e ∈ b.occurrences, row e.1 ∈ r e.1) ∧ t ∈ b.derive fun o => {row o}

variable {b} {rel : ι → Set α}

lemma inputs_mono {rel' : ι → Set α} (h : ∀ n, rel n ⊆ rel' n) (o : κ) :
    b.inputs rel o ⊆ b.inputs rel' o := by
  rintro t ⟨n, hn, ht⟩
  exact ⟨n, hn, h n ht⟩

/-- **One round.**  What a body derives from the relations it derives from the old ones, or from
what was added at one of its occurrences. -/
theorem derive_cases [DecidableEq κ] (hmono : b.Monotone) (hrow : b.OneRowEach) {old : ι → Set α}
    {t : α} (ht : t ∈ b.derive (b.inputs rel)) : t ∈ b.derive (b.inputs old) ∨
      ∃ e ∈ b.occurrences, (rel e.2 \ old e.2).Nonempty ∧
        t ∈ b.derive (Function.update (b.inputs rel) e.1 (rel e.2 \ old e.2)) := by
  obtain ⟨row, hin, hderive⟩ := hrow _ t ht
  by_cases hold : ∀ e ∈ b.occurrences, row e.1 ∈ b.inputs old e.1
  · refine .inl (hmono _ _ (fun e he => ?_) hderive)
    exact Set.singleton_subset_iff.mpr (hold e he)
  · push Not at hold
    obtain ⟨e, he, hnew⟩ := hold
    -- The row was added at an occurrence of this name.
    obtain ⟨n, hn, hrel⟩ := hin e he
    have hadded : row e.1 ∈ rel n \ old n := ⟨hrel, fun h => hnew ⟨n, hn, h⟩⟩
    refine .inr ⟨(e.1, n), hn, ⟨_, hadded⟩, hmono _ _ (fun e' he' => ?_) hderive⟩
    rw [Set.singleton_subset_iff]
    by_cases heq : e'.1 = e.1
    · rw [heq, Function.update_self]
      exact hadded
    · rw [Function.update_of_ne heq]
      exact hin e' he'

lemma derive_update_subset [DecidableEq κ] (hmono : b.Monotone) {o : κ} {added : Set α}
    (hadded : added ⊆ b.inputs rel o) :
    b.derive (Function.update (b.inputs rel) o added) ⊆ b.derive (b.inputs rel) := by
  refine hmono _ _ fun e _ => ?_
  by_cases heq : e.1 = o
  · rw [heq, Function.update_self]
    exact hadded
  · rw [Function.update_of_ne heq]

end Body

/-- Rules: given relations, and the bodies of the defined ones. -/
structure Rules (ι κ α : Type*) where
  given : ι → Set α
  bodies : ι → List (Body ι κ α)
  monotone : ∀ n, ∀ b ∈ bodies n, b.Monotone

namespace Rules

variable (p : Rules ι κ α)

/-- **Immediate consequences.** -/
def consequence : (ι → Set α) →o (ι → Set α) where
  toFun rel n := p.given n ∪ {t | ∃ b ∈ p.bodies n, t ∈ b.derive (b.inputs rel)}
  monotone' := by
    rintro rel rel' h n t (ht | ⟨b, hb, ht⟩)
    · exact .inl ht
    · exact .inr ⟨b, hb, p.monotone n b hb _ _ (fun e _ => Body.inputs_mono h e.1) ht⟩

/-- The relations that the rules define. -/
def least : ι → Set α := OrderHom.lfp p.consequence

lemma given_subset_least (n : ι) : p.given n ⊆ p.least n := by
  have h := le_of_eq (OrderHom.map_lfp p.consequence) n
  exact fun t ht => h (.inl ht)

lemma derive_subset_least {n : ι} {b : Body ι κ α} (hb : b ∈ p.bodies n) {rel : ι → Set α}
    (hrel : ∀ m, rel m ⊆ p.least m) : b.derive (b.inputs rel) ⊆ p.least n := by
  have h := le_of_eq (OrderHom.map_lfp p.consequence) n
  intro t ht
  exact h (.inr ⟨b, hb, p.monotone n b hb _ _ (fun e _ => Body.inputs_mono hrel e.1) ht⟩)

/-- **Invariant** of a run with the relations `rel` that had `old` a round ago. -/
structure Reached (old rel : ι → Set α) : Prop where
  grows : ∀ n, old n ⊆ rel n
  sound : ∀ n, rel n ⊆ p.least n
  given : ∀ n, p.given n ⊆ rel n
  closed : ∀ n, ∀ b ∈ p.bodies n, b.derive (b.inputs old) ⊆ rel n

variable {p}

lemma Reached.eq_least {old rel : ι → Set α} (h : p.Reached old rel) (hsame : ∀ n, rel n ⊆ old n) :
    rel = p.least := by
  have heq : old = rel := funext fun n => Set.Subset.antisymm (h.grows n) (hsame n)
  subst heq
  refine le_antisymm h.sound (OrderHom.lfp_le _ fun n t ht => ?_)
  rcases ht with ht | ⟨b, hb, ht⟩
  · exact h.given n ht
  · exact h.closed n b hb ht

/-- **The first round** derives from the given relations alone. -/
theorem Reached.first : p.Reached p.given (p.consequence p.given) where
  grows _ := Set.subset_union_left
  sound n := Set.union_subset (p.given_subset_least n) fun _ ⟨_, hb, ht⟩ =>
    p.derive_subset_least hb p.given_subset_least ht
  given _ := Set.subset_union_left
  closed _ b hb _ ht := .inr ⟨b, hb, ht⟩

/-- **A round** that adds what the narrowed passes derive. -/
theorem Reached.round [DecidableEq κ] {old rel added : ι → Set α} (h : p.Reached old rel)
    (hrow : ∀ n, ∀ b ∈ p.bodies n, b.OneRowEach)
    (hadded : ∀ n, ∀ t ∈ added n, ∃ b ∈ p.bodies n, t ∈ b.derive (b.inputs rel))
    (hpass : ∀ n, ∀ b ∈ p.bodies n, ∀ e ∈ b.occurrences, (rel e.2 \ old e.2).Nonempty →
      b.derive (Function.update (b.inputs rel) e.1 (rel e.2 \ old e.2)) ⊆ rel n ∪ added n) :
    p.Reached rel fun n => rel n ∪ added n where
  grows _ := Set.subset_union_left
  sound n := Set.union_subset (h.sound n) fun t ht => by
    obtain ⟨b, hb, ht⟩ := hadded n t ht
    exact p.derive_subset_least hb h.sound ht
  given n := (h.given n).trans Set.subset_union_left
  closed n b hb t ht := by
    rcases Body.derive_cases (p.monotone n b hb) (hrow n b hb) ht with hold | ⟨e, he, hne, hdelta⟩
    · exact .inl (h.closed n b hb hold)
    · exact hpass n b hb e he hne hdelta

end Rules

end Kyzo.SemiNaive

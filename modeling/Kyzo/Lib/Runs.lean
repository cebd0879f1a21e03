import Mathlib.Data.List.Basic

/-!
# Runs of a step function

Runs of a partial step function whose steps all meet a condition on the state before them, and the
induction that carries an invariant along.
-/

namespace Kyzo

open List

variable {S A : Type}

/-- A run of steps, each allowed in the state before it. -/
inductive StepRun (step : S → A → Option S) (allowed : S → A → Prop) (s : S) : List A → S → Prop
  | nil : StepRun step allowed s [] s
  | snoc {actions : List A} {t u : S} {a : A} (run : StepRun step allowed s actions t)
      (ok : allowed t a) (next : step t a = some u) : StepRun step allowed s (actions ++ [a]) u

variable {step : S → A → Option S} {actions : List A}

namespace StepRun

variable {allowed : S → A → Prop} {s t : S}

/-- **What every allowed step keeps, a run keeps.** -/
theorem invariant {P : S → Prop} (h : StepRun step allowed s actions t) (hs : P s)
    (hstep : ∀ {t u : S} {a : A}, P t → allowed t a → step t a = some u → P u) : P t := by
  induction h with
  | nil => exact hs
  | snoc _ ok next ih => exact hstep ih ok next

end StepRun

/-- The state a list of steps leads to. -/
def runSteps (step : S → A → Option S) (s : S) (actions : List A) : Option S :=
  actions.foldlM step s

variable {s t : S}

lemma runSteps_concat (h : runSteps step s actions = some t) (a : A) :
    runSteps step s (actions ++ [a]) = step t a := by
  rw [runSteps] at h ⊢
  rw [foldlM_append, h]
  exact bind_pure (step t a)

lemma StepRun.extend {allowed : S → A → Prop} {u : S} (h : StepRun step allowed s actions t)
    (more : List A) (hmore : ∀ a ∈ more, ∀ t, allowed t a)
    (hsteps : runSteps step t more = some u) : StepRun step allowed s (actions ++ more) u := by
  induction more generalizing actions t with
  | nil =>
    cases hsteps
    rwa [append_nil]
  | cons a more ih =>
    obtain ⟨next, hnext, hsteps⟩ := Option.bind_eq_some_iff.mp hsteps
    have hrun := ih (h.snoc (hmore a (.head _) t) hnext)
      (fun b hb => hmore b (mem_cons_of_mem a hb)) hsteps
    rwa [append_assoc] at hrun

end Kyzo

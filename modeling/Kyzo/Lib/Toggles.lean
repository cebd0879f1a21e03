import Mathlib

/-!
# A flag under signed changes

Membership in a set as a number that is zero or one, and signed changes of it.  A list of changes
leads from one flag to another when every partial sum is a flag again: only then may a part of the
changes be summed up first.
-/

namespace Kyzo

/-- Membership as a number. -/
def flag (b : Bool) : ℤ := if b = true then 1 else 0

/-- A number that stands for a membership. -/
def IsFlag (n : ℤ) : Prop := n = 0 ∨ n = 1

lemma isFlag_flag (b : Bool) : IsFlag (flag b) := by
  rcases b with _ | _
  · exact .inl rfl
  · exact .inr rfl

lemma flag_injective {a b : Bool} (h : flag a = flag b) : a = b := by
  revert a b
  decide

/-- The changes lead from one flag to another, through flags. -/
def Toggles : ℤ → List ℤ → ℤ → Prop
  | m, [], n => IsFlag m ∧ m = n
  | m, d :: ds, n => IsFlag m ∧ Toggles (m + d) ds n

namespace Toggles

variable {m n k : ℤ} {ds es : List ℤ}

lemma refl (h : IsFlag m) : Toggles m [] m := ⟨h, rfl⟩

variable (h : Toggles m ds n)
include h

lemma isFlag : IsFlag m := by
  cases ds with
  | nil | cons => exact h.1

lemma append (h' : Toggles n es k) : Toggles m (ds ++ es) k := by
  induction ds generalizing m with
  | nil =>
    obtain ⟨-, rfl⟩ := h
    exact h'
  | cons d ds ih => exact ⟨h.1, ih h.2⟩

lemma concat {d : ℤ} (hflag : IsFlag (n + d)) : Toggles m (ds ++ [d]) (n + d) := by
  have hend : IsFlag n := by
    induction ds generalizing m with
    | nil => exact h.2 ▸ h.1
    | cons d ds ih => exact ih h.2
  exact h.append ⟨hend, hflag, rfl⟩

omit h

lemma of_zero (h : IsFlag m) (hzero : ∀ d ∈ ds, d = 0) : Toggles m ds m := by
  induction ds with
  | nil => exact refl h
  | cons d ds ih =>
    obtain ⟨hd, htail⟩ := List.forall_mem_cons.mp hzero
    refine ⟨h, ?_⟩
    rw [hd, add_zero]
    exact ih htail

end Toggles

end Kyzo

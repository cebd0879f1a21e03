import Mathlib.Data.List.Destutter
import Mathlib.Tactic

/-!
# Sorting and deduplicating under a comparison

`sortDedup cmp` is the collection step shared by ordered sets and by canonical encoders: sort, then
drop what compares equal to its predecessor.  On a list that is already strictly ascending it
changes nothing.  `zipCmp` is the element loop of a structural comparison; followed by a
comparison of the lengths it is the lexicographic comparison.
-/

namespace Kyzo

open List

variable {α : Type*}

/-- Strictly ascending under the comparison `cmp`. -/
def Ascending (cmp : α → α → Ordering) (l : List α) : Prop :=
  l.Pairwise fun a b => cmp a b = .lt

/-- Sort by `cmp`, then drop every item that compares equal to the one before it. -/
def sortDedup (cmp : α → α → Ordering) (l : List α) : List α :=
  (l.insertionSort fun a b => (cmp a b).isLE = true).destutter fun a b => cmp a b ≠ .eq

lemma sortDedup_of_ascending {cmp : α → α → Ordering} {l : List α} (h : Ascending cmp l) :
    sortDedup cmp l = l := by
  have hle : l.Pairwise fun a b => (cmp a b).isLE = true := by
    refine h.imp ?_
    intro a b hab
    rw [hab]
    rfl
  have hne : l.IsChain fun a b => cmp a b ≠ .eq := by
    apply List.Pairwise.isChain
    refine h.imp ?_
    intro a b hab
    rw [hab]
    decide
  rw [sortDedup, hle.insertionSort_eq, destutter_of_isChain _ _ hne]

/-- The element loop of a structural comparison: the first difference decides, and a list that
runs out decides nothing. -/
def zipCmp (cmp : α → α → Ordering) : List α → List α → Ordering
  | x :: xs, y :: ys =>
    match cmp x y with
    | .eq => zipCmp cmp xs ys
    | c => c
  | _, _ => .eq

lemma zipCmp_then_length (cmp : α → α → Ordering) (xs ys : List α) :
    (zipCmp cmp xs ys).then (compare xs.length ys.length) = List.compareLex cmp xs ys := by
  induction xs generalizing ys with
  | nil =>
    cases ys with
    | nil => rfl
    | cons y ys => simp [zipCmp, List.compareLex_nil_cons, Nat.compare_eq_lt]
  | cons x xs ih =>
    cases ys with
    | nil => simp [zipCmp, List.compareLex_cons_nil, Nat.compare_eq_gt]
    | cons y ys =>
      have hlen : compare (x :: xs).length (y :: ys).length = compare xs.length ys.length := by
        simp [List.length_cons, Nat.compare_eq_ite_lt]
      rw [List.compareLex_cons_cons, hlen, ← ih ys, zipCmp]
      cases cmp x y <;> rfl

lemma zipCmp_of_length_eq (cmp : α → α → Ordering) {xs ys : List α}
    (h : xs.length = ys.length) : zipCmp cmp xs ys = List.compareLex cmp xs ys := by
  rw [← zipCmp_then_length, Nat.compare_eq_eq.mpr h, Ordering.then_eq]

lemma length_filter_lt {α : Type*} {l : List α} {p q : α → Bool} {a : α} (ha : a ∈ l)
    (himp : ∀ b ∈ l, p b = true → q b = true) (hq : q a = true) (hp : p a = false) :
    (l.filter p).length < (l.filter q).length := by
  have hsub : l.filter p = (l.filter q).filter p := by
    rw [filter_filter]
    refine filter_congr fun b hb => ?_
    rcases hpb : p b
    · rfl
    · rw [himp b hb hpb]
      rfl
  rw [hsub, length_filter_lt_length_iff_exists]
  exact ⟨a, mem_filter.mpr ⟨ha, hq⟩, by simp [hp]⟩

end Kyzo

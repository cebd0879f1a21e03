import Mathlib.Tactic

/-!
# Maximal runs of a piecewise constant function

A partial function of time that changes only at known breaks is described by its maximal runs: where
a run starts, what the function is there, and the break at which it is something else.
-/

namespace Kyzo

open List

variable {τ β : Type*} [LinearOrder τ]

/-- A run of one value. -/
structure TimeRun (τ β : Type*) where
  start : τ
  value : β
  /-- The break that ends the run, if one does. -/
  stop : Option τ

def TimeRun.Covers (s : TimeRun τ β) (t : τ) : Prop := s.start ≤ t ∧ ∀ e ∈ s.stop, t < e

/-- Instants in order, each once. -/
def sortInstants (l : List τ) : List τ := (l.insertionSort (· ≤ ·)).dedup

variable {l : List τ} {t : τ}

lemma mem_sortInstants : t ∈ sortInstants l ↔ t ∈ l := by
  rw [sortInstants, mem_dedup, mem_insertionSort]

lemma sortInstants_ascending (l : List τ) : (sortInstants l).Pairwise (· < ·) := by
  have hle := (pairwise_insertionSort (· ≤ ·) l).sublist (dedup_sublist _)
  exact (hle.and (nodup_dedup _)).imp fun h => lt_of_le_of_ne h.1 h.2

lemma exists_latest (h : ∃ b ∈ l, b ≤ t) : ∃ b ∈ l, b ≤ t ∧ ∀ b' ∈ l, b < b' → t < b' := by
  obtain ⟨b, hb, hbt⟩ := h
  obtain ⟨m, hm, hmax⟩ := (l.filter (· ≤ t)).toFinset.exists_max_image id
    ⟨b, mem_toFinset.mpr (mem_filter.mpr ⟨hb, decide_eq_true hbt⟩)⟩
  obtain ⟨hml, hmt⟩ := mem_filter.mp (mem_toFinset.mp hm)
  refine ⟨m, hml, of_decide_eq_true hmt, fun b' hb' hlt => not_le.mp fun hle => ?_⟩
  exact absurd (hmax b' (mem_toFinset.mpr (mem_filter.mpr ⟨hb', decide_eq_true hle⟩)))
    (not_le.mpr hlt)

variable [DecidableEq β] (f : τ → Option β)

/-- The maximal runs of `f` over its breaks: a run is closed at the first break where `f`
differs. -/
def maximalSpans : List τ → List (TimeRun τ β)
  | [] => []
  | start :: breaks =>
    match f start with
    | none => maximalSpans breaks
    | some value =>
      let later := breaks.dropWhile fun b => f b == some value
      ⟨start, value, later.head?⟩ :: maximalSpans later
termination_by breaks => breaks.length
decreasing_by
  · simp
  · exact Nat.lt_succ_of_le (dropWhile_sublist _).length_le

variable {f} {breaks : List τ}

section

variable (hasc : breaks.Pairwise (· < ·))

include hasc

lemma of_mem_maximalSpans :
    ∀ s ∈ maximalSpans f breaks, s.start ∈ breaks ∧ f s.start = some s.value ∧
      ∀ e ∈ s.stop, e ∈ breaks ∧ s.start < e ∧ f e ≠ some s.value := by
  fun_induction maximalSpans f breaks with
  | case1 => exact forall_mem_nil _
  | case2 start breaks hnone ih =>
    intro s hs
    obtain ⟨hstart, hvalue, hstop⟩ := ih (pairwise_cons.mp hasc).2 s hs
    exact ⟨.tail _ hstart, hvalue, fun e he => ⟨.tail _ (hstop e he).1, (hstop e he).2⟩⟩
  | case3 start breaks value hvalue later ih =>
    obtain ⟨hstart, hasc⟩ := pairwise_cons.mp hasc
    have hsub : later.Sublist breaks := dropWhile_sublist _
    refine forall_mem_cons.mpr ⟨⟨.head _, hvalue, fun e he => ?_⟩, fun s hs => ?_⟩
    · have hmem := hsub.subset (mem_of_mem_head? he)
      have hne := head?_dropWhile_not (fun b => f b == some value) breaks
      rw [show (breaks.dropWhile fun b => f b == some value).head? = some e from he] at hne
      exact ⟨.tail _ hmem, hstart e hmem, by simpa using hne⟩
    · obtain ⟨hmem, heq, hstop⟩ := ih (hasc.sublist hsub) s hs
      exact ⟨.tail _ (hsub.subset hmem), heq, fun e he =>
        ⟨.tail _ (hsub.subset (hstop e he).1), (hstop e he).2⟩⟩

lemma maximalSpans_ordered :
    (maximalSpans f breaks).Pairwise fun a b => ∃ e ∈ a.stop, e ≤ b.start := by
  fun_induction maximalSpans f breaks with
  | case1 => exact .nil
  | case2 start breaks hnone ih => exact ih (pairwise_cons.mp hasc).2
  | case3 start breaks value hvalue later ih =>
    have hlater : later.Pairwise (· < ·) :=
      (pairwise_cons.mp hasc).2.sublist (dropWhile_sublist _)
    refine pairwise_cons.mpr ⟨fun s hs => ?_, ih hlater⟩
    obtain ⟨hmem, -⟩ := of_mem_maximalSpans hlater s hs
    rcases hcons : later with _ | ⟨e, rest⟩
    · rw [hcons] at hmem
      cases hmem
    rw [hcons] at hmem hlater
    rcases mem_cons.mp hmem with heq | hrest
    · exact ⟨e, by simp, heq.ge⟩
    · exact ⟨e, by simp, ((pairwise_cons.mp hlater).1 _ hrest).le⟩

lemma covers_break_iff {b : τ} (hb : b ∈ breaks) {value : β} :
    (∃ s ∈ maximalSpans f breaks, s.value = value ∧ s.Covers b) ↔ f b = some value := by
  fun_induction maximalSpans f breaks with
  | case1 => cases hb
  | case2 start breaks hnone ih =>
    obtain ⟨hfirst, hlater⟩ := pairwise_cons.mp hasc
    rcases mem_cons.mp hb with rfl | hb
    · refine iff_of_false ?_ (by simp [hnone])
      rintro ⟨s, hs, -, hcovers⟩
      exact absurd hcovers.1 (hfirst _ (of_mem_maximalSpans hlater s hs).1).not_ge
    · exact ih hlater hb
  | case3 start breaks first hfirst later ih =>
    obtain ⟨hbelow, hasc⟩ := pairwise_cons.mp hasc
    have hsplit : breaks.takeWhile (fun b => f b == some first) ++ later = breaks :=
      takeWhile_append_dropWhile
    rw [← hsplit] at hasc hb hbelow
    obtain ⟨-, hlater, hcross⟩ := pairwise_append.mp hasc
    have hcase : (f b = some first ∧ start ≤ b ∧ ∀ e ∈ later, b < e) ∨ b ∈ later := by
      rcases mem_cons.mp hb with rfl | hb
      · exact .inl ⟨hfirst, le_rfl, fun e he => hbelow e (mem_append_right _ he)⟩
      rcases mem_append.mp hb with hrun | hrest
      · exact .inl ⟨by simpa using all_eq_true.mp all_takeWhile b hrun,
          (hbelow b (mem_append_left _ hrun)).le, hcross b hrun⟩
      · exact .inr hrest
    simp only [mem_cons, exists_eq_or_imp]
    rcases hcase with ⟨hvalue, hle, hbefore⟩ | hrest
    · have hnone : ¬∃ s ∈ maximalSpans f later, s.value = value ∧ s.Covers b := by
        rintro ⟨s, hs, -, hcovers⟩
        exact absurd hcovers.1 (hbefore _ (of_mem_maximalSpans hlater s hs).1).not_ge
      rw [or_iff_left hnone, hvalue, Option.some.injEq]
      exact and_iff_left ⟨hle, fun e he => hbefore e (mem_of_mem_head? he)⟩
    · rw [or_iff_right, ih hlater hrest]
      rintro ⟨-, -, hstop⟩
      obtain ⟨e, he⟩ := Option.isSome_iff_exists.mp (isSome_head?.mpr (ne_nil_of_mem hrest))
      obtain ⟨rest, hcons⟩ : ∃ rest, later = e :: rest := head?_eq_some_iff.mp he
      rw [hcons] at hrest hlater
      rcases mem_cons.mp hrest with rfl | hmem
      · exact lt_irrefl _ (hstop b he)
      · exact absurd (hstop e he) ((pairwise_cons.mp hlater).1 b hmem).not_gt

/-- **The runs are the function**, wherever it is known to keep its value between breaks. -/
theorem covers_maximalSpans_iff (hbefore : ∀ t, (∀ b ∈ breaks, t < b) → f t = none)
    (hconst : ∀ b ∈ breaks, ∀ t, b ≤ t → (∀ b' ∈ breaks, b < b' → t < b') → f t = f b) {t : τ}
    {value : β} :
    (∃ s ∈ maximalSpans f breaks, s.value = value ∧ s.Covers t) ↔ f t = some value := by
  by_cases hstart : ∃ b ∈ breaks, b ≤ t
  · -- The runs begin and end at breaks, so they cover a time as they cover the break before it.
    obtain ⟨b, hb, hbt, hnext⟩ := exists_latest hstart
    rw [hconst b hb t hbt hnext, ← covers_break_iff hasc hb]
    refine exists_congr fun s => and_congr_right fun hs => and_congr_right fun _ => ?_
    obtain ⟨hmem, -, hstop⟩ := of_mem_maximalSpans hasc s hs
    refine and_congr ⟨fun h => not_lt.mp fun hlt => ?_, fun h => h.trans hbt⟩
      (forall₂_congr fun e he => ⟨fun h => hbt.trans_lt h, fun h => hnext e (hstop e he).1 h⟩)
    exact absurd (hnext _ hmem hlt) h.not_gt
  · push Not at hstart
    rw [hbefore t hstart]
    refine iff_of_false ?_ (by simp)
    rintro ⟨s, hs, -, hcovers⟩
    exact absurd hcovers.1 (hstart _ (of_mem_maximalSpans hasc s hs).1).not_ge

end

end Kyzo

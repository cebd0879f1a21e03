import Mathlib
import Kyzo.Rules.GraphView

/-!
# Topological sort

The algorithm of `rules/algo/top_sort.rs`.  A node is released when the counter of its incoming
edges reaches zero.  The counters are 32 bits wide and wrap, so a node with very many parallel edges
into it can be released before its last edge has been taken away, and again later.  How often a node
is released follows from its number of edges alone; where the counters fit, what is left over on a
graph with cycles is exactly what a cycle reaches.
-/

namespace Kyzo

open List Relation Function

namespace DirectedCsrGraph

variable {W : Type}

/-- One more for each occurrence in the list (`in_degree[to] += 1`). -/
def countInto {n : ℕ} (degree : Fin n → Int32) (tos : List (Fin n)) : Fin n → Int32 :=
  tos.foldl (fun d to' => update d to' (d to' + 1)) degree

/-- The edges out of a removed node: degrees fall, and a node whose degree reaches zero is
pushed. -/
def release {n : ℕ} (degree : Fin n → Int32) (pending : List (Fin n)) :
    List (Fin n) → (Fin n → Int32) × List (Fin n)
  | [] => (degree, pending)
  | nxt :: rest =>
    let degree := update degree nxt (degree nxt - 1)
    release degree (if degree nxt = 0 then nxt :: pending else pending) rest

variable (g : DirectedCsrGraph W)

/-- The loop over the pending nodes, the next one first, for at most `fuel` turns. -/
def kahnLoop : ℕ → (Fin g.nodeCount → Int32) → List (Fin g.nodeCount) → List (Fin g.nodeCount) →
    Option (List (Fin g.nodeCount))
  | 0, _, _, _ => none
  | _ + 1, _, [], sorted => some sorted
  | fuel + 1, degree, removed :: pending, sorted =>
    let (degree, pending) := release degree pending (g.outNeighbors removed)
    kahnLoop fuel degree pending (sorted ++ [removed])

def inDegree : Fin g.nodeCount → Int32 :=
  countInto (fun _ => 0) ((finRange g.nodeCount).flatMap g.outNeighbors)

/-- `kahn_g`, for a number of turns of its loop. -/
def kahnG (turns : ℕ) : Option (List (Fin g.nodeCount)) :=
  g.kahnLoop turns g.inDegree ((finRange g.nodeCount).filter (g.inDegree · = 0)).reverse []

/-! ## Edges -/

/-- A cycle reaches the node. -/
def Reached (v : Fin g.nodeCount) : Prop := ∃ c, TransGen g.Edge c c ∧ ReflTransGen g.Edge c v

/-- The number of edges into a node. -/
def edgesInto (v : Fin g.nodeCount) : ℕ := g.edges.countP (·.2.1 = v)

open Classical in
/-- The number of edges into a node from nodes that no cycle reaches. -/
noncomputable def freeEdgesInto (v : Fin g.nodeCount) : ℕ :=
  g.edges.countP fun e => e.2.1 = v ∧ ¬ g.Reached e.1

/-- The counter of a node is zero once its edges have been taken away and not before; and never, if
a cycle reaches the node. -/
def CounterFits (v : Fin g.nodeCount) : Prop :=
  (g.Reached v → g.freeEdgesInto v < g.edgesInto v % 2 ^ 32) ∧
    (¬ g.Reached v → g.edgesInto v < 2 ^ 32)

/-- The edges into a node that are taken away with the sorted nodes. -/
def taken (sorted : List (Fin g.nodeCount)) (v : Fin g.nodeCount) : ℕ :=
  (sorted.flatMap g.outNeighbors).count v

variable {g} {degree : Fin g.nodeCount → Int32} {pending sorted : List (Fin g.nodeCount)}
  {removed u v : Fin g.nodeCount}

lemma count_outNeighbors (u v : Fin g.nodeCount) :
    (g.outNeighbors u).count v = g.edges.countP fun e => e.1 = u ∧ e.2.1 = v := by
  rw [outNeighbors, outNeighborsWithValues, ((mergeSort_perm _ _).map _).count_eq, count,
    countP_map, countP_map, countP_filter]
  refine countP_congr fun e _ => ?_
  simp [and_comm]

lemma taken_eq (h : sorted.Nodup) (v : Fin g.nodeCount) :
    g.taken sorted v = g.edges.countP fun e => e.2.1 = v ∧ e.1 ∈ sorted := by
  induction sorted with
  | nil => simp [taken]
  | cons u sorted ih =>
    obtain ⟨hu, hsorted⟩ := nodup_cons.mp h
    rw [taken, flatMap_cons, count_append, ← taken, ih hsorted, count_outNeighbors,
      countP_eq_countP_filter_add g.edges (fun e => e.2.1 = v ∧ e.1 ∈ u :: sorted) (·.1 = u),
      countP_filter, countP_filter]
    congr 1 <;> refine countP_congr fun e _ => ?_
    · simp only [mem_cons, Bool.and_eq_true, decide_eq_true_eq]
      tauto
    · have hne : e.1 ∈ sorted → e.1 ≠ u := fun he heq => hu (heq ▸ he)
      simp only [mem_cons, Bool.and_eq_true, Bool.not_eq_true', decide_eq_true_eq,
        decide_eq_false_iff_not]
      tauto

lemma taken_finRange (v : Fin g.nodeCount) : g.taken (finRange g.nodeCount) v = g.edgesInto v := by
  rw [taken_eq (nodup_finRange _), edgesInto]
  exact countP_congr fun e _ => by simp

/-! ## Counters -/

/-- How often a counter with `m` to count down from is zero, at the start and after each of `d`
steps down. -/
@[irreducible] def zeros (m d : ℕ) : ℕ := (d + 2 ^ 32 - m % 2 ^ 32) / 2 ^ 32

lemma ofInt_eq_zero {x : ℤ} : Int32.ofInt x = 0 ↔ ((2 ^ 32 : ℕ) : ℤ) ∣ x :=
  (Int32.ofInt_eq_iff_bmod_eq_toInt x 0).trans Int.dvd_iff_bmod_eq_zero.symm

lemma zeros_zero (m : ℕ) : zeros m 0 = if m % 2 ^ 32 = 0 then 1 else 0 := by
  unfold zeros
  rw [Nat.zero_add]
  by_cases h : m % 2 ^ 32 = 0
  · rw [if_pos h]
    omega
  · rw [if_neg h]
    omega

lemma zeros_succ (m d : ℕ) :
    zeros m (d + 1) = zeros m d + if Int32.ofInt (m - (d + 1 : ℕ)) = 0 then 1 else 0 := by
  unfold zeros
  simp only [ofInt_eq_zero]
  split_ifs <;> omega

lemma countInto_apply {n : ℕ} (degree : Fin n → Int32) (tos : List (Fin n)) (v : Fin n) :
    countInto degree tos v = degree v + Int32.ofInt (tos.count v) := by
  induction tos generalizing degree with
  | nil => exact (Int32.add_zero _).symm
  | cons to' tos ih =>
    rw [countInto, foldl_cons, ← countInto, ih]
    by_cases h : v = to'
    · subst h
      rw [update_self, count_cons_self, Int32.add_assoc, Int32.add_comm 1, Nat.cast_add,
        Int32.ofInt_add]
      rfl
    · rw [update_of_ne h, count_cons_of_ne (Ne.symm h)]

lemma inDegree_eq (v : Fin g.nodeCount) : g.inDegree v = Int32.ofInt (g.edgesInto v) := by
  rw [inDegree, countInto_apply, ← taken_finRange, taken, Int32.zero_add]

/-- **The edges out of a removed node**, where the counters stand at the edges not yet taken away:
they go on to do so, and a node is pushed as often as its counter is zero on the way. -/
theorem release_spec {n : ℕ} {degree : Fin n → Int32} {m d : Fin n → ℕ}
    (pending tos : List (Fin n)) (hdegree : ∀ v, degree v = Int32.ofInt (m v - d v)) :
    (∀ v, (release degree pending tos).1 v = Int32.ofInt (m v - (d v + tos.count v : ℕ))) ∧
      ∀ v, (release degree pending tos).2.count v + zeros (m v) (d v) =
        pending.count v + zeros (m v) (d v + tos.count v) := by
  induction tos generalizing degree pending d with
  | nil => exact ⟨by simpa [release] using hdegree, by simp [release]⟩
  | cons nxt tos ih =>
    have hstep : ∀ v, update degree nxt (degree nxt - 1) v =
        Int32.ofInt (m v - (update d nxt (d nxt + 1) v : ℕ)) := by
      intro v
      by_cases hv : v = nxt
      · subst hv
        rw [update_self, update_self, hdegree, Nat.cast_add, ← sub_sub]
        exact (Int32.ofInt_sub _ 1).symm
      · rw [update_of_ne hv, update_of_ne hv, hdegree]
    obtain ⟨hdown, hcount⟩ := ih _ hstep
    refine ⟨fun v => ?_, fun v => ?_⟩
    · rw [release, hdown]
      by_cases hv : v = nxt
      · subst hv
        rw [update_self, count_cons_self, Nat.add_right_comm, Nat.add_assoc]
      · rw [update_of_ne hv, count_cons_of_ne (Ne.symm hv)]
    · have hv := hcount v
      rw [release]
      by_cases hnxt : v = nxt
      · subst hnxt
        have hnow : degree v - 1 = Int32.ofInt (m v - (d v + 1 : ℕ)) := by simpa using hstep v
        simp only [update_self] at hv ⊢
        have hsum : d v + 1 + tos.count v = d v + (tos.count v + 1) := by omega
        rw [hsum, zeros_succ, ← hnow] at hv
        rw [count_cons_self]
        by_cases hzero : degree v - 1 = 0
        · rw [if_pos hzero, if_pos hzero, count_cons_self] at hv
          rw [if_pos hzero]
          omega
        · rw [if_neg hzero, if_neg hzero, Nat.add_zero] at hv
          rwa [if_neg hzero]
      · rw [update_of_ne hnxt] at hv
        rw [count_cons_of_ne (Ne.symm hnxt), hv]
        split_ifs
        · rw [count_cons_of_ne (Ne.symm hnxt)]
        · rfl

/-! ## The loop -/

/-- **Invariant.**  A counter stands at the edges that are not taken away, and a node has been
pushed as often as its counter was zero. -/
structure Releases (degree : Fin g.nodeCount → Int32) (pending sorted : List (Fin g.nodeCount)) :
    Prop where
  degree_eq : ∀ v, degree v = Int32.ofInt (g.edgesInto v - g.taken sorted v)
  count_eq : ∀ v, (sorted ++ pending).count v = zeros (g.edgesInto v) (g.taken sorted v)

lemma releases_inDegree : Releases g.inDegree
    ((finRange g.nodeCount).filter (g.inDegree · = 0)).reverse [] where
  degree_eq v := by
    rw [inDegree_eq, taken, flatMap_nil, count_nil, Nat.cast_zero, sub_zero]
  count_eq v := by
    have hzero : g.inDegree v = 0 ↔ g.edgesInto v % 2 ^ 32 = 0 := by
      rw [inDegree_eq, ofInt_eq_zero, Int.natCast_dvd_natCast, Nat.dvd_iff_mod_eq_zero]
    rw [nil_append, count_reverse, taken, flatMap_nil, count_nil, zeros_zero]
    by_cases h : g.inDegree v = 0
    · rw [if_pos (hzero.mp h), count_filter (by simpa using h), count_finRange]
    · rw [if_neg (mt hzero.mpr h), count_eq_zero_of_not_mem (by simpa using h)]

/-- **Step.** -/
theorem Releases.step (h : Releases degree (removed :: pending) sorted) :
    Releases (release degree pending (g.outNeighbors removed)).1
      (release degree pending (g.outNeighbors removed)).2 (sorted ++ [removed]) := by
  obtain ⟨hdegree, hcount⟩ := release_spec pending (g.outNeighbors removed) h.degree_eq
  have htaken : ∀ v, g.taken (sorted ++ [removed]) v =
      g.taken sorted v + (g.outNeighbors removed).count v := by
    intro v
    rw [taken, flatMap_append, count_append, flatMap_singleton, taken]
  refine ⟨fun v => ?_, fun v => ?_⟩
  · rw [hdegree, htaken]
  · have hv := h.count_eq v
    have hw := hcount v
    rw [htaken]
    simp only [count_append, count_cons, count_nil] at hv ⊢
    omega

/-- **Run.** -/
theorem Releases.count_kahnLoop {fuel : ℕ} {out : List (Fin g.nodeCount)}
    (h : Releases degree pending sorted) (hout : g.kahnLoop fuel degree pending sorted = some out) :
    ∀ v, out.count v = zeros (g.edgesInto v) (g.taken out v) := by
  induction fuel generalizing degree pending sorted with
  | zero => cases hout
  | succ fuel ih =>
    rcases pending with _ | ⟨removed, pending⟩
    · cases hout
      simpa using h.count_eq
    · exact ih h.step hout

/-! ## What is sorted -/

lemma taken_le_edgesInto (h : sorted.Nodup) : g.taken sorted v ≤ g.edgesInto v := by
  rw [taken_eq h, edgesInto]
  exact countP_mono_left fun e _ he => by simpa using (of_decide_eq_true he).1

lemma taken_le_freeEdgesInto (h : sorted.Nodup) (hfree : ∀ u ∈ sorted, ¬ g.Reached u) :
    g.taken sorted v ≤ g.freeEdgesInto v := by
  rw [taken_eq h, freeEdgesInto]
  refine countP_mono_left fun e _ he => ?_
  obtain ⟨hv, hu⟩ := of_decide_eq_true he
  simpa using ⟨hv, hfree e.1 hu⟩

lemma taken_eq_freeEdgesInto (h : sorted.Nodup) (hfree : ∀ u, u ∈ sorted ↔ ¬ g.Reached u) :
    g.taken sorted v = g.freeEdgesInto v := by
  rw [taken_eq h, freeEdgesInto]
  exact countP_congr fun e _ => by simp [hfree]

/-- An edge from a node that is not sorted has not been taken away. -/
lemma taken_lt_edgesInto (h : sorted.Nodup) (huv : g.Edge u v) (hu : u ∉ sorted) :
    g.taken sorted v < g.edgesInto v := by
  have hcons := taken_le_edgesInto (v := v) (nodup_cons.mpr ⟨hu, h⟩)
  have hedge : 0 < (g.outNeighbors u).count v := count_pos_iff.mpr (mem_outNeighbors.mpr huv)
  rw [taken, flatMap_cons, count_append, ← taken] at hcons
  omega

lemma exists_edge_of_taken_lt (h : sorted.Nodup) (hlt : g.taken sorted v < g.edgesInto v) :
    ∃ u, g.Edge u v ∧ u ∉ sorted := by
  by_contra hnone
  push Not at hnone
  refine hlt.ne ?_
  rw [taken_eq h, edgesInto]
  refine countP_congr fun e he => ?_
  have hmem : e.2.1 = v → e.1 ∈ sorted := fun hv => hnone e.1 ⟨e.2.2, by rw [← hv]; exact he⟩
  simpa using hmem

lemma Reached.of_edge (hu : g.Reached u) (huv : g.Edge u v) : g.Reached v := by
  obtain ⟨c, hcycle, hreach⟩ := hu
  exact ⟨c, hcycle, hreach.tail huv⟩

lemma freeEdgesInto_of_not_reached (h : ¬ g.Reached v) : g.freeEdgesInto v = g.edgesInto v := by
  refine countP_congr fun e he => ?_
  have hfree : e.2.1 = v → ¬ g.Reached e.1 := fun hv hu =>
    h (hv ▸ hu.of_edge ⟨e.2.2, he⟩)
  simpa using hfree

/-- The nodes sorted so far: each of them once, none that a cycle reaches, and what leads to one is
sorted before it. -/
structure Ordered (sorted : List (Fin g.nodeCount)) : Prop where
  nodup : sorted.Nodup
  free : ∀ v ∈ sorted, ¬ g.Reached v
  before : ∀ u v, g.Edge u v → v ∈ sorted → u ∈ sorted ∧ sorted.idxOf u < sorted.idxOf v

section

variable (fits : ∀ v, g.CounterFits v)
include fits

/-- Where the counters fit, a node is pushed once, after all that lead to it have been sorted. -/
lemma Ordered.count_le (h : Ordered sorted) (v : Fin g.nodeCount) :
    zeros (g.edgesInto v) (g.taken sorted v) ≤ 1 ∧
      (0 < zeros (g.edgesInto v) (g.taken sorted v) →
        ¬ g.Reached v ∧ g.edgesInto v ≤ g.taken sorted v) := by
  have hle : g.taken sorted v ≤ g.freeEdgesInto v := taken_le_freeEdgesInto h.nodup h.free
  unfold zeros
  by_cases hv : g.Reached v
  · have := (fits v).1 hv
    have hzero : (g.taken sorted v + 2 ^ 32 - g.edgesInto v % 2 ^ 32) / 2 ^ 32 = 0 := by omega
    rw [hzero]
    exact ⟨Nat.zero_le _, fun h => absurd h (lt_irrefl _)⟩
  · have := (fits v).2 hv
    rw [freeEdgesInto_of_not_reached hv] at hle
    exact ⟨by omega, fun _ => ⟨hv, by omega⟩⟩

/-- **Step.** -/
theorem Ordered.step (h : Ordered sorted) (hrel : Releases degree (removed :: pending) sorted) :
    Ordered (sorted ++ [removed]) := by
  have hcount := fun v => hrel.count_eq v ▸ h.count_le fits v
  have hnodup : (sorted ++ removed :: pending).Nodup :=
    nodup_iff_count_le_one.mpr fun v => (hcount v).1
  have hout : removed ∉ sorted := fun hin => disjoint_of_nodup_append hnodup hin (.head _)
  obtain ⟨hfree, htaken⟩ := (hcount removed).2 (count_pos_iff.mpr (by simp))
  refine ⟨?_, ?_, fun u v huv hv => ?_⟩
  · rw [append_cons] at hnodup
    exact hnodup.of_append_left
  · simpa [or_imp, forall_and] using ⟨h.free, hfree⟩
  rcases mem_append.mp hv with hv | hv
  · obtain ⟨hu, hlt⟩ := h.before u v huv hv
    rw [idxOf_append_of_mem hu, idxOf_append_of_mem hv]
    exact ⟨mem_append_left _ hu, hlt⟩
  · -- The removed node had no edge left from an unsorted one.
    obtain rfl := mem_singleton.mp hv
    have hu : u ∈ sorted := by
      by_contra hu
      exact (taken_lt_edgesInto h.nodup huv hu).not_ge htaken
    rw [idxOf_append_of_mem hu, idxOf_append_of_notMem hout]
    exact ⟨mem_append_left _ hu, Nat.lt_add_right _ (idxOf_lt_length_of_mem hu)⟩

/-- **Run.** -/
theorem Ordered.kahnLoop {fuel : ℕ} (h : Ordered sorted) (hrel : Releases degree pending sorted)
    (hfuel : g.nodeCount < fuel + sorted.length) :
    ∃ out, g.kahnLoop fuel degree pending sorted = some out ∧ Ordered out := by
  induction fuel generalizing degree pending sorted with
  | zero =>
    have hle := h.nodup.length_le_card
    rw [Fintype.card_fin] at hle
    omega
  | succ fuel ih =>
    rcases pending with _ | ⟨removed, pending⟩
    · exact ⟨sorted, rfl, h⟩
    · exact ih (h.step fits hrel) hrel.step (by rw [length_append, length_singleton]; omega)

end

/-- A node that is not sorted in the end is reached by a cycle. -/
theorem reached_of_not_mem (hnodup : sorted.Nodup)
    (hcount : ∀ v, sorted.count v = zeros (g.edgesInto v) (g.taken sorted v)) (hv : v ∉ sorted) :
    g.Reached v := by
  by_contra hnone
  -- Without such a cycle, what reaches the node is well founded.
  let leads (a b : Fin g.nodeCount) : Prop := TransGen g.Edge a b ∧ ReflTransGen g.Edge b v
  have htrans : IsTrans _ leads := ⟨fun a b c hab hbc => ⟨hab.1.trans hbc.1, hbc.2⟩⟩
  have hirrefl : Std.Irrefl leads := ⟨fun a ha => hnone ⟨a, ha⟩⟩
  obtain ⟨first, ⟨hfirst, hreach⟩, hmin⟩ := (Finite.wellFounded_of_trans_of_irrefl leads).has_min
    {u | u ∉ sorted ∧ ReflTransGen g.Edge u v} ⟨v, hv, .refl⟩
  have hlt : g.taken sorted first < g.edgesInto first := by
    have hzero := hcount first
    rw [count_eq_zero_of_not_mem hfirst, zeros] at hzero
    omega
  obtain ⟨u, hedge, hu⟩ := exists_edge_of_taken_lt hnodup hlt
  exact hmin u ⟨hu, .head hedge hreach⟩ ⟨.single hedge, hreach⟩

/-- A counter that does not fit shows: the node is pushed twice, or although a cycle reaches it. -/
theorem counterFits_of_sorts (hnodup : sorted.Nodup) (hmem : ∀ v, v ∈ sorted ↔ ¬ g.Reached v)
    (hcount : ∀ v, sorted.count v = zeros (g.edgesInto v) (g.taken sorted v)) :
    ∀ v, g.CounterFits v := by
  intro v
  have hv := hcount v
  rw [taken_eq_freeEdgesInto hnodup hmem, zeros] at hv
  refine ⟨fun hr => ?_, fun hr => ?_⟩
  · rw [count_eq_zero_of_not_mem (by simpa [hmem] using hr)] at hv
    omega
  · have hone := nodup_iff_count_le_one.mp hnodup v
    rw [freeEdgesInto_of_not_reached hr] at hv
    omega

/-- **Topological sort.**  The loop ends, every node it sorts stands in the result once, these are
the nodes that no cycle reaches, and edges between them lead forward: exactly if the counters
fit. -/
theorem kahnG_sorts (g : DirectedCsrGraph W) : (∃ turns sorted, g.kahnG turns = some sorted ∧
      sorted.Nodup ∧ (∀ v, v ∈ sorted ↔ ¬ g.Reached v) ∧
      ∀ u v, g.Edge u v → u ∈ sorted → v ∈ sorted → sorted.idxOf u < sorted.idxOf v) ↔
    ∀ v, g.CounterFits v := by
  constructor
  · rintro ⟨turns, sorted, hkahn, hnodup, hmem, -⟩
    exact counterFits_of_sorts hnodup hmem (releases_inDegree.count_kahnLoop hkahn)
  · intro fits
    have hstart : Ordered (g := g) [] := ⟨nodup_nil, by simp, by simp⟩
    obtain ⟨sorted, hloop, h⟩ := hstart.kahnLoop fits releases_inDegree (Nat.lt_succ_self _)
    refine ⟨_, sorted, hloop, h.nodup, fun v => ⟨h.free v, fun hv => ?_⟩,
      fun u v huv _ hv => (h.before u v huv hv).2⟩
    by_contra hout
    exact hv (reached_of_not_mem h.nodup (releases_inDegree.count_kahnLoop hloop) hout)

/-- Two nodes with very many edges from the first to the second. -/
def bundle : DirectedCsrGraph Unit := ⟨2, replicate (2 ^ 32) (0, 1, ())⟩

/-- **A counter that wraps**: no run on the two nodes sorts both once, in the order of their
edges. -/
theorem bundle_not_sorted : ¬ ∃ turns sorted, bundle.kahnG turns = some sorted ∧
    sorted.Nodup ∧ (∀ v, v ∈ sorted ↔ ¬ bundle.Reached v) ∧
      ∀ u v, bundle.Edge u v → u ∈ sorted → v ∈ sorted → sorted.idxOf u < sorted.idxOf v := by
  rintro ⟨turns, sorted, hkahn, hnodup, hmem, -⟩
  have hinto : bundle.edgesInto (1 : Fin 2) = 2 ^ 32 :=
    countP_replicate.trans (if_pos rfl)
  obtain ⟨hreached, hfree⟩ :=
    counterFits_of_sorts hnodup hmem (releases_inDegree.count_kahnLoop hkahn) (1 : Fin 2)
  rw [hinto] at hreached hfree
  by_cases h : bundle.Reached (1 : Fin 2)
  · have := hreached h
    omega
  · exact lt_irrefl _ (hfree h)

end DirectedCsrGraph

end Kyzo

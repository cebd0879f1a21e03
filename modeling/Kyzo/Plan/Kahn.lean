import Kyzo.Plan.Graph

/-!
# What the generalized Kahn's algorithm returns

On a graph without cycles it places every node in one stratum, no edge leads to an earlier stratum,
and a poisoned edge leads to a later one.
-/

namespace Kyzo

open List Std.TreeMap Prod

variable {T : Type} [Ord T]

/-- An edge with its flag. -/
def LabelledEdge (g : StratifiedGraph T) (i j : T) (poisoned : Bool) : Prop :=
  ∃ tos, g[i]? = some tos ∧ tos[j]? = some poisoned

variable {g : StratifiedGraph ℕ}

lemma mem_outEdges {i j : ℕ} {p : Bool} : (j, p) ∈ outEdges g i ↔ LabelledEdge g i j p := by
  have hget : g.get? i = g[i]? := rfl
  rw [outEdges, LabelledEdge, hget]
  rcases g[i]? with _ | tos
  · simp
  · simp [mem_toList_iff_getElem?_eq_some]

lemma outEdges_nodup (g : StratifiedGraph ℕ) (i : ℕ) : ((outEdges g i).map fst).Nodup := by
  rw [outEdges]
  rcases g.get? i with _ | tos
  · exact nodup_nil
  · exact Std.TreeMap.map_fst_toList_eq_keys ▸ keys_nodup tos

/-- Edges stay between the nodes. -/
structure InRange (g : StratifiedGraph ℕ) (n : ℕ) : Prop where
  source : ∀ i ∈ g, i < n
  target : ∀ i j p, LabelledEdge g i j p → j < n

/-- **Strata**: every node stands in one of them, and edges lead to the same stratum or a later one,
to a later one if they are poisoned. -/
structure Layered (g : StratifiedGraph ℕ) (n : ℕ) (strata : List (List ℕ)) : Prop where
  nodup : strata.flatten.Nodup
  mem_iff : ∀ j, j ∈ strata.flatten ↔ j < n
  nonempty : ∀ stratum ∈ strata, stratum ≠ []
  order : ∀ (k : ℕ) (stratum : List ℕ), strata[k]? = some stratum → ∀ j ∈ stratum,
    ∀ i p, LabelledEdge g i j p → ∃ (k' : ℕ) (earlier : List ℕ), strata[k']? = some earlier ∧
      i ∈ earlier ∧ k' ≤ k ∧ (p = true → k' < k)

/-- The nodes with an edge to `j` that have not been placed. -/
def unplaced (g : StratifiedGraph ℕ) (n : ℕ) (placed : List ℕ) (j : ℕ) : Finset ℕ :=
  (Finset.range n).filter fun i => i ∉ placed ∧ j ∈ (outEdges g i).map fst

/-- **Invariant** of the loop while the edges `todo` of the node placed last remain. -/
structure KahnInv (g : StratifiedGraph ℕ) (n : ℕ) (ret : List (List ℕ)) (current : List ℕ)
    (s : KahnState) (todo : List (ℕ × Bool)) : Prop where
  length : s.inDegree.length = n
  nodup : (ret.flatten ++ current ++ s.safePending).Nodup
  inRange : ∀ j ∈ ret.flatten ++ current ++ s.safePending, j < n
  degree : ∀ j < n, s.inDegree[j]? =
    some ((unplaced g n (ret.flatten ++ current) j).card + (todo.map fst).count j)
  zero : ∀ j ∈ ret.flatten ++ current ++ s.safePending, s.inDegree[j]? = some 0
  ready : ∀ j, s.inDegree[j]? = some 0 →
    j ∈ ret.flatten ++ current ++ s.safePending ∨ j ∈ s.unsafeNodes
  waits : ∀ j ∈ s.unsafeNodes, j ∉ ret.flatten ++ current ++ s.safePending
  poisoned : ∀ i ∈ current, ∀ j, LabelledEdge g i j true → j ∈ s.unsafeNodes ∨ (j, true) ∈ todo
  orderRet : ∀ (k : ℕ) (stratum : List ℕ), ret[k]? = some stratum → ∀ j ∈ stratum,
    ∀ i p, LabelledEdge g i j p → ∃ (k' : ℕ) (earlier : List ℕ), ret[k']? = some earlier ∧
      i ∈ earlier ∧ k' ≤ k ∧ (p = true → k' < k)
  orderCurrent : ∀ j ∈ current ++ s.safePending, ∀ i p, LabelledEdge g i j p →
    i ∈ ret.flatten ∨ p = false ∧ i ∈ current
  nonempty : ∀ stratum ∈ ret, stratum ≠ []
  currentNonempty : ∀ j ∈ s.unsafeNodes, current ≠ []

namespace KahnInv

variable {n : ℕ} {ret : List (List ℕ)} {current : List ℕ} {s : KahnState} {todo : List (ℕ × Bool)}
  {nxt removed : ℕ} {p : Bool} {placed : List ℕ}

lemma mem_of_unplaced_eq_zero (hrange : InRange g n) {i j : ℕ} {q : Bool}
    (hcard : (unplaced g n placed j).card = 0) (hedge : LabelledEdge g i j q) : i ∈ placed := by
  by_contra hi
  have hin : i < n := by
    obtain ⟨tos, htos, -⟩ := hedge
    exact hrange.source i (mem_iff_isSome_getElem?.mpr (by rw [htos]; rfl))
  have hmem : i ∈ unplaced g n placed j := by
    rw [unplaced, Finset.mem_filter, Finset.mem_range]
    exact ⟨hin, hi, mem_map.mpr ⟨(j, q), mem_outEdges.mpr hedge, rfl⟩⟩
  rw [Finset.card_eq_zero] at hcard
  rw [hcard] at hmem
  exact absurd hmem (Finset.notMem_empty i)

/-- What has been placed or pushed: the nodes with no edge left that need not wait. -/
theorem mem_placed (h : KahnInv g n ret current s todo) (j : ℕ) :
    j ∈ ret.flatten ++ current ++ s.safePending ↔ s.inDegree[j]? = some 0 ∧ j ∉ s.unsafeNodes :=
  ⟨fun hj => ⟨h.zero j hj, fun hwait => h.waits j hwait hj⟩,
    fun hj => (h.ready j hj.1).resolve_right hj.2⟩

/-- The fields that follow from it. -/
theorem fields_of_placed (hlen : s.inDegree.length = n)
    (h : ∀ j, j ∈ placed ↔ s.inDegree[j]? = some 0 ∧ j ∉ s.unsafeNodes) :
    (∀ j ∈ placed, j < n) ∧ (∀ j ∈ placed, s.inDegree[j]? = some 0) ∧
      (∀ j, s.inDegree[j]? = some 0 → j ∈ placed ∨ j ∈ s.unsafeNodes) ∧
      ∀ j ∈ s.unsafeNodes, j ∉ placed := by
  refine ⟨fun j hj => ?_, fun j hj => ((h j).mp hj).1, fun j hj => ?_, fun j hj hin => ?_⟩
  · exact hlen ▸ (List.getElem_of_getElem? ((h j).mp hj).1).1
  · exact (em (j ∈ s.unsafeNodes)).symm.imp_left fun hout => (h j).mpr ⟨hj, hout⟩
  · exact ((h j).mp hin).2 hj

/-- **An edge is consumed.** -/
theorem relax (h : KahnInv g n ret current s ((nxt, p) :: todo)) (hrange : InRange g n)
    (hnodup : (((nxt, p) :: todo).map fst).Nodup) (hr : removed ∈ current)
    (hedge : LabelledEdge g removed nxt p) :
    ∃ s', Kyzo.relax s (nxt, p) = .ok s' ∧ KahnInv g n ret current s' todo := by
  have hnxt : nxt < n := hrange.target _ _ _ hedge
  obtain ⟨hout, -⟩ := nodup_cons.mp hnodup
  have hcount : (todo.map fst).count nxt = 0 := count_eq_zero_of_not_mem hout
  have hdeg : s.inDegree[nxt]? =
      some ((unplaced g n (ret.flatten ++ current) nxt).card + 1) := by
    rw [h.degree nxt hnxt, map_cons, count_cons_self, hcount]
  -- The node has an edge left, so it is neither placed nor pushed.
  have hfree : nxt ∉ ret.flatten ++ current ++ s.safePending := by
    rw [h.mem_placed, hdeg]
    simp
  obtain ⟨s', hs'⟩ : ∃ s', Kyzo.relax s (nxt, p) = .ok s' := by
    rw [Kyzo.relax, hdeg]
    exact ⟨_, rfl⟩
  obtain ⟨d, hd, hinDegree, hwaiting, hpending⟩ := relax_eq_ok hs'
  obtain rfl : (unplaced g n (ret.flatten ++ current) nxt).card = d := by
    rw [hdeg] at hd
    exact Nat.succ_injective (Option.some.inj hd)
  have hwait : ∀ j, j ∈ s'.unsafeNodes ↔ j ∈ s.unsafeNodes ∨ (j, true) = (nxt, p) := by
    intro j
    rw [hwaiting]
    split_ifs with hp
    · rw [Std.TreeSet.mem_insert, Std.LawfulEqOrd.compare_eq_iff_eq, or_comm]
      simp [show p = true from hp, eq_comm]
    · simp [show p = false from Bool.eq_false_of_not_eq_true hp]
  -- What is pushed: the node, if this was the last edge to it and it need not wait.
  have hpush : ∀ j, j ∈ s'.safePending ↔ j ∈ s.safePending ∨
      j = nxt ∧ (unplaced g n (ret.flatten ++ current) nxt).card = 0 ∧ nxt ∉ s'.unsafeNodes := by
    intro j
    rw [hpending]
    split_ifs with hzero
    · rw [mem_cons, or_comm, and_iff_left hzero]
    · refine ⟨.inl, fun hj => hj.resolve_right fun hj => hzero hj.2⟩
  have hdegree : ∀ j, nxt ≠ j → s'.inDegree[j]? = s.inDegree[j]? :=
    fun j hj => by rw [hinDegree, getElem?_set_ne hj]
  have hself : s'.inDegree[nxt]? = some (unplaced g n (ret.flatten ++ current) nxt).card := by
    rw [hinDegree, getElem?_set_self (by rw [h.length]; exact hnxt)]
  have hlen : s'.inDegree.length = n := by rw [hinDegree, length_set, h.length]
  have hplaced : ∀ j, j ∈ ret.flatten ++ current ++ s'.safePending ↔
      s'.inDegree[j]? = some 0 ∧ j ∉ s'.unsafeNodes := by
    intro j
    rw [mem_append, hpush, ← or_assoc, ← mem_append]
    by_cases hj : nxt = j
    · subst hj
      rw [or_iff_right hfree, hself, Option.some_inj, and_iff_right rfl]
    · rw [h.mem_placed, hdegree j hj, or_iff_left fun hpush => hj hpush.1.symm, hwait,
        or_iff_left fun heq => hj (mk.inj heq).1.symm]
  obtain ⟨hinRange, hzero, hready, hwaits⟩ := fields_of_placed hlen hplaced
  have hpoisoned : ∀ i ∈ current, ∀ j, LabelledEdge g i j true →
      j ∈ s'.unsafeNodes ∨ (j, true) ∈ todo := by
    intro i hi j hij
    rw [hwait, or_assoc, ← mem_cons]
    exact h.poisoned i hi j hij
  refine ⟨s', hs', { h with
    length := hlen, nodup := ?_, inRange := hinRange, degree := fun j hj => ?_, zero := hzero
    ready := hready, waits := hwaits, poisoned := hpoisoned, orderCurrent := fun j hj i q hij => ?_
    currentNonempty := fun j _ => ne_nil_of_mem hr }⟩
  · rw [hpending]
    split_ifs
    · refine (nodup_middle).mpr (nodup_cons.mpr ⟨hfree, h.nodup⟩)
    · exact h.nodup
  · by_cases hjn : nxt = j
    · subst hjn
      rw [hself, hcount]
      rfl
    · rw [hdegree j hjn, h.degree j hj, map_cons, count_cons_of_ne hjn]
  · rw [mem_append, hpush, ← or_assoc, ← mem_append] at hj
    rcases hj with hj | ⟨rfl, hzero, hsafe⟩
    · exact h.orderCurrent j hj i q hij
    · refine (mem_append.mp (mem_of_unplaced_eq_zero hrange hzero hij)).imp_right fun hi => ⟨?_, hi⟩
      -- A poisoned edge from the current stratum would make the node wait.
      by_contra hq
      rw [Bool.not_eq_false] at hq
      subst hq
      exact hout (mem_map.mpr ⟨_, (hpoisoned i hi j hij).resolve_left hsafe, rfl⟩)

lemma relaxAll (hrange : InRange g n) (hr : removed ∈ current)
    (h : KahnInv g n ret current s todo) (hnodup : (todo.map fst).Nodup)
    (hedges : ∀ e ∈ todo, LabelledEdge g removed e.1 e.2) :
    ∃ s', todo.foldlM Kyzo.relax s = .ok s' ∧ KahnInv g n ret current s' [] := by
  induction todo generalizing s with
  | nil => exact ⟨s, rfl, h⟩
  | cons edge todo ih =>
    obtain ⟨s₁, hrelax, h₁⟩ := h.relax hrange hnodup hr (hedges _ (.head _))
    obtain ⟨s', hfold, h'⟩ := ih h₁ (nodup_cons.mp hnodup).2
      fun e he => hedges e (.tail _ he)
    refine ⟨s', ?_, h'⟩
    rw [foldlM_cons, hrelax]
    exact hfold

lemma card_unplaced_place (hin : removed < n) (hout : removed ∉ placed) (j : ℕ) :
    (unplaced g n placed j).card =
      (unplaced g n (placed ++ [removed]) j).card + ((outEdges g removed).map fst).count j := by
  have herase : unplaced g n (placed ++ [removed]) j = (unplaced g n placed j).erase removed := by
    ext i
    simp only [unplaced, Finset.mem_filter, Finset.mem_erase, mem_append, mem_singleton, not_or]
    tauto
  have hmem : removed ∈ unplaced g n placed j ↔ j ∈ (outEdges g removed).map fst := by
    simp [unplaced, hin, hout]
  rw [herase]
  by_cases hedge : j ∈ (outEdges g removed).map fst
  · rw [count_eq_one_of_mem (outEdges_nodup g removed) hedge,
      Finset.card_erase_add_one (hmem.mpr hedge)]
  · rw [count_eq_zero_of_not_mem hedge, Finset.erase_eq_of_notMem (mt hmem.mp hedge), add_zero]

section

variable (h : KahnInv g n ret current s [])
include h

/-- **A node is placed.** -/
theorem place {safePending : List ℕ} (hpending : s.safePending = removed :: safePending) :
    KahnInv g n ret (current ++ [removed]) { s with safePending } (outEdges g removed) := by
  have hlist : ret.flatten ++ (current ++ [removed]) ++ safePending =
      ret.flatten ++ current ++ s.safePending := by
    rw [hpending]
    simp
  have hmem : removed ∈ ret.flatten ++ current ++ s.safePending := by simp [hpending]
  have hout : removed ∉ ret.flatten ++ current := by
    intro hin
    have hdisj := disjoint_of_nodup_append h.nodup
    exact hdisj hin (by simp [hpending])
  refine { h with
    nodup := hlist ▸ h.nodup, inRange := hlist ▸ h.inRange, degree := fun j hj => ?_
    zero := hlist ▸ h.zero, ready := hlist ▸ h.ready, waits := hlist ▸ h.waits
    poisoned := fun i hi j hij => ?_, orderCurrent := fun j hj i p hij => ?_
    currentNonempty := fun _ _ => by simp }
  · rw [← append_assoc, ← card_unplaced_place (h.inRange removed hmem) hout]
    exact h.degree j hj
  · rcases mem_append.mp hi with hi | hi
    · exact .inl ((h.poisoned i hi j hij).resolve_right not_mem_nil)
    · obtain rfl := mem_singleton.mp hi
      exact .inr (mem_outEdges.mpr hij)
  · have hj' : j ∈ current ++ s.safePending := by
      rw [hpending]
      simpa using hj
    exact (h.orderCurrent j hj' i p hij).imp_right
      fun ⟨hp, hi⟩ => ⟨hp, mem_append_left _ hi⟩

/-- **A stratum is closed.** -/
theorem boundary (hrange : InRange g n) (hpending : s.safePending = []) (hne : current ≠ []) :
    KahnInv g n (ret ++ [current]) []
      { s with safePending := released s, unsafeNodes := ∅ } [] := by
  have hflat : (ret ++ [current]).flatten ++ [] = ret.flatten ++ current := by simp
  have hold : ∀ j, j ∈ ret.flatten ++ current ↔ s.inDegree[j]? = some 0 ∧ j ∉ s.unsafeNodes := by
    simpa [hpending] using h.mem_placed
  have hplaced : ∀ j, j ∈ (ret ++ [current]).flatten ++ [] ++ released s ↔
      s.inDegree[j]? = some 0 ∧ j ∉ (∅ : Std.TreeSet ℕ) := by
    intro j
    rw [hflat, mem_append, hold, mem_released, and_comm, ← or_and_right, and_iff_right (em' _)]
    simp
  have hearlier : ∀ {k : ℕ} {earlier : List ℕ}, ret[k]? = some earlier →
      (ret ++ [current])[k]? = some earlier := fun hk => by
    rw [List.getElem?_append_left (List.getElem_of_getElem? hk).1, hk]
  obtain ⟨hinRange, hzero, hready, hwaits⟩ := fields_of_placed
    (s := { s with safePending := released s, unsafeNodes := ∅ }) h.length hplaced
  refine { h with
    nodup := ?_, inRange := hinRange, degree := hflat ▸ h.degree, zero := hzero, ready := hready
    waits := hwaits, poisoned := fun i hi => absurd hi not_mem_nil
    orderRet := fun k stratum hk j hj i p hij => ?_, orderCurrent := fun j hj i p hij => .inl ?_
    nonempty := forall_mem_append.mpr ⟨h.nonempty, forall_mem_singleton.mpr hne⟩
    currentNonempty := fun j hj => absurd hj Std.TreeSet.not_mem_emptyc }
  · rw [hflat]
    refine Nodup.append ?_ (released_nodup s) fun j hj hrel => ?_
    · simpa [hpending] using h.nodup
    · exact ((hold j).mp hj).2 (mem_released.mp hrel).1
  · have hat := hk
    rw [getElem?_append] at hk
    split_ifs at hk with hlt
    · obtain ⟨k', earlier, hk', hi, hle⟩ := h.orderRet k stratum hk j hj i p hij
      exact ⟨k', earlier, hearlier hk', hi, hle⟩
    · obtain rfl : current = stratum := (mem_singleton.mp (mem_of_getElem? hk)).symm
      rcases h.orderCurrent j (mem_append_left _ hj) i p hij with hi | ⟨rfl, hi⟩
      · obtain ⟨earlier, hmem, hi⟩ := mem_flatten.mp hi
        obtain ⟨k', hk'⟩ := mem_iff_getElem?.mp hmem
        have hlt' : k' < k := (List.getElem_of_getElem? hk').1.trans_le (not_lt.mp hlt)
        exact ⟨k', earlier, hearlier hk', hi, hlt'.le, fun _ => hlt'⟩
      · exact ⟨k, current, hat, hi, le_rfl, fun hp => nomatch hp⟩
  · -- All nodes with an edge to a released one have been placed.
    have hzero : s.inDegree[j]? = some 0 := (mem_released.mp hj).2
    have hdeg := h.degree j (h.length ▸ (List.getElem_of_getElem? hzero).1)
    rw [hzero] at hdeg
    simpa using mem_of_unplaced_eq_zero hrange (Option.some.inj hdeg).symm hij

lemma of_boundary (hrange : InRange g n) {ret₁ : List (List ℕ)} {current₁ : List ℕ} {s₁ : KahnState}
    (hb : Kyzo.boundary ret current s = (ret₁, current₁, s₁)) :
    KahnInv g n ret₁ current₁ s₁ [] ∧ (s₁.safePending = [] → ∀ j, j ∉ s₁.unsafeNodes) := by
  rw [Kyzo.boundary] at hb
  split_ifs at hb with hcond
  · obtain ⟨rfl, rfl, rfl⟩ : _ ∧ _ ∧ _ := by simpa [Prod.ext_iff] using hb
    obtain ⟨hpending, hwaiting⟩ := hcond
    obtain ⟨j, hj⟩ : ∃ j, j ∈ s.unsafeNodes := by
      rw [Std.TreeSet.isEmpty_iff_forall_not_mem] at hwaiting
      push Not at hwaiting
      exact hwaiting
    exact ⟨h.boundary hrange (isEmpty_iff.mp hpending) (h.currentNonempty j hj),
      fun _ j => Std.TreeSet.not_mem_emptyc⟩
  · obtain ⟨rfl, rfl, rfl⟩ : _ ∧ _ ∧ _ := by simpa [Prod.ext_iff] using hb
    refine ⟨h, fun hpending => ?_⟩
    have hempty : s.unsafeNodes.isEmpty = true := by
      by_contra hne
      exact hcond ⟨isEmpty_iff.mpr hpending, hne⟩
    exact Std.TreeSet.isEmpty_iff_forall_not_mem.mp hempty

end

section Finish

variable (h : KahnInv g n ret current s []) (hrange : InRange g n)
  (hwf : WellFounded fun i j => ∃ p, LabelledEdge g i j p)
  (hpending : s.safePending = []) (hwaiting : ∀ j, j ∉ s.unsafeNodes)

include h hwf hpending hwaiting

lemma placed_of_finish {j : ℕ} (hj : j < n) : j ∈ ret.flatten ++ current := by
  -- The nodes with an edge to it have been placed before.
  induction j using hwf.induction with
  | _ j ih =>
    have hcard : (unplaced g n (ret.flatten ++ current) j).card = 0 := by
      rw [Finset.card_eq_zero, unplaced, Finset.filter_eq_empty_iff]
      rintro i hi ⟨hout, hedge⟩
      obtain ⟨⟨_, p⟩, hmem, rfl⟩ := mem_map.mp hedge
      exact hout (ih i ⟨p, mem_outEdges.mp hmem⟩ (Finset.mem_range.mp hi))
    have hdeg := h.degree j hj
    rw [hcard] at hdeg
    have hready := (h.ready j hdeg).resolve_right (hwaiting j)
    rwa [hpending, append_nil] at hready

include hrange in
lemma layered_of_finish : Layered g n (if current.isEmpty then ret else ret ++ [current]) := by
  have hplaced : ∀ j, j ∈ ret.flatten ++ current ↔ j < n := fun j =>
    ⟨fun hj => h.inRange j (mem_append_left _ hj), h.placed_of_finish hwf hpending hwaiting⟩
  have hnodup := h.nodup
  rw [hpending, append_nil] at hnodup
  split_ifs with hempty
  · obtain rfl := isEmpty_iff.mp hempty
    rw [append_nil] at hnodup
    exact ⟨hnodup, fun j => by rw [← hplaced j, append_nil], h.nonempty, h.orderRet⟩
  · have hclosed := h.boundary hrange hpending fun hnil => hempty (isEmpty_iff.mpr hnil)
    have hflat : (ret ++ [current]).flatten = ret.flatten ++ current := by simp
    exact ⟨hflat ▸ hnodup, fun j => by rw [hflat, hplaced j], hclosed.nonempty, hclosed.orderRet⟩

lemma consumed_of_finish : ∀ d ∈ s.inDegree, d = 0 := by
  intro d hd
  obtain ⟨j, hj⟩ := mem_iff_getElem?.mp hd
  have hjn : j < n := h.length ▸ (List.getElem_of_getElem? hj).1
  have hmem := h.placed_of_finish hwf hpending hwaiting hjn
  have hzero := h.zero j (mem_append_left _ hmem)
  exact Option.some.inj (hj.symm.trans hzero)

end Finish

/-- **Run.**  The loop ends, consumes every edge and returns strata. -/
theorem kahnLoop (h : KahnInv g n ret current s []) (hrange : InRange g n)
    (hwf : WellFounded fun i j => ∃ p, LabelledEdge g i j p) :
    ∃ strata inDegree, Kyzo.kahnLoop g ret current s = .ok (strata, inDegree) ∧
      (∀ d ∈ inDegree, d = 0) ∧ Layered g n strata := by
  induction ret, current, s using Kyzo.kahnLoop.induct g with
  | case1 ret current s ret₁ current₁ s₁ hb hp =>
    obtain ⟨h₁, hwait⟩ := h.of_boundary hrange hb
    exact ⟨_, _, kahnLoop_of_nil hb hp, h₁.consumed_of_finish hwf hp (hwait hp),
      h₁.layered_of_finish hrange hwf hp (hwait hp)⟩
  | case2 ret current s ret₁ current₁ s₁ hb removed safePending hp e he =>
    obtain ⟨h₁, -⟩ := h.of_boundary hrange hb
    obtain ⟨s₂, hfold, -⟩ := (h₁.place hp).relaxAll hrange (mem_append_right _ (by simp))
      (outEdges_nodup g removed) fun edge hedge => mem_outEdges.mp hedge
    cases he.symm.trans hfold
  | case3 ret current s ret₁ current₁ s₁ hb removed safePending hp s₂ he ih =>
    obtain ⟨h₁, -⟩ := h.of_boundary hrange hb
    obtain ⟨s₃, hfold, h₃⟩ := (h₁.place hp).relaxAll hrange (mem_append_right _ (by simp))
      (outEdges_nodup g removed) fun edge hedge => mem_outEdges.mp hedge
    cases he.symm.trans hfold
    rw [kahnLoop_of_cons hb hp he]
    exact ih h₃

end KahnInv

/-! ## In-degrees -/

lemma foldlM_countEdge (tgts : List ℕ) (inDegree : List ℕ) (h : ∀ j ∈ tgts, j < inDegree.length) :
    ∃ counted, tgts.foldlM countEdge inDegree = .ok counted ∧
      counted.length = inDegree.length ∧
      ∀ j, counted[j]? = inDegree[j]?.map (· + tgts.count j) := by
  induction tgts generalizing inDegree with
  | nil => exact ⟨inDegree, rfl, rfl, fun j => by simp⟩
  | cons tgt tgts ih =>
    have htgt : tgt < inDegree.length := h tgt (.head _)
    have hcount : countEdge inDegree tgt = .ok (inDegree.set tgt (inDegree[tgt] + 1)) := by
      rw [countEdge, getElem?_eq_getElem htgt]
    obtain ⟨counted, hfold, hlen, hget⟩ := ih (inDegree.set tgt (inDegree[tgt] + 1))
      fun j hj => by simpa using h j (.tail _ hj)
    refine ⟨counted, ?_, by simpa using hlen, fun j => ?_⟩
    · rw [foldlM_cons, hcount]
      exact hfold
    · rw [hget]
      by_cases hj : tgt = j
      · subst hj
        rw [getElem?_set_self htgt, getElem?_eq_getElem htgt, count_cons_self]
        exact congrArg some (Nat.add_right_comm _ 1 _)
      · rw [getElem?_set_ne hj, count_cons_of_ne hj]

lemma foldlM_inDegrees {n : ℕ} (rows : List (ℕ × Std.TreeMap ℕ Bool)) (inDegree : List ℕ)
    (hlen : inDegree.length = n) (h : ∀ row ∈ rows, row.1 < n ∧ ∀ j ∈ row.2.keys, j < n) :
    ∃ counted, rows.foldlM (fun inDegree (fr, tos) =>
        if fr < n then tos.keys.foldlM countEdge inDegree else .error .kahnSourceOutOfRange)
          inDegree = .ok counted ∧
      counted.length = n ∧
      ∀ j, counted[j]? = inDegree[j]?.map (· + (rows.map fun row => row.2.keys.count j).sum) := by
  induction rows generalizing inDegree with
  | nil => exact ⟨inDegree, rfl, hlen, fun j => by simp⟩
  | cons row rows ih =>
    obtain ⟨hsource, htargets⟩ := h row (.head _)
    obtain ⟨counted, hfold, hlen', hget⟩ := foldlM_countEdge row.2.keys inDegree
      fun j hj => hlen ▸ htargets j hj
    obtain ⟨total, hrest, hlen'', hget'⟩ := ih counted (hlen'.trans hlen)
      fun row hrow => h row (.tail _ hrow)
    refine ⟨total, ?_, hlen'', fun j => ?_⟩
    · rw [foldlM_cons]
      simp only [if_pos hsource, hfold]
      exact hrest
    · rw [hget', hget]
      simp

variable {n : ℕ} (hrange : InRange g n)
include hrange

lemma sum_count_eq_card (j : ℕ) :
    (g.toList.map fun row => row.2.keys.count j).sum = (unplaced g n [] j).card := by
  have hsum : ∀ rows : List (ℕ × Std.TreeMap ℕ Bool),
      (rows.map fun row => row.2.keys.count j).sum =
        ((rows.filter fun row => j ∈ row.2.keys).map fst).length := by
    intro rows
    induction rows with
    | nil => rfl
    | cons row rows ih =>
      rw [map_cons, sum_cons, ih, length_map, length_map, filter_cons]
      split_ifs with hj
      · rw [count_eq_one_of_mem (keys_nodup row.2) (of_decide_eq_true hj), length_cons,
          Nat.add_comm]
      · rw [count_eq_zero_of_not_mem (mt decide_eq_true hj), Nat.zero_add]
  have hnodup : ((g.toList.filter fun row => j ∈ row.2.keys).map fst).Nodup := by
    refine .sublist (filter_sublist.map _) ?_
    exact Std.TreeMap.map_fst_toList_eq_keys ▸ keys_nodup g
  rw [hsum, ← toFinset_card_of_nodup hnodup]
  congr 1
  ext i
  rw [unplaced, Finset.mem_filter, Finset.mem_range, mem_toFinset, mem_map]
  constructor
  · rintro ⟨⟨i, tos⟩, hmem, rfl⟩
    obtain ⟨hrow, hj⟩ := mem_filter.mp hmem
    rw [mem_toList_iff_getElem?_eq_some] at hrow
    have hj' : j ∈ tos := mem_keys.mp (of_decide_eq_true hj)
    obtain ⟨p, hp⟩ := Option.isSome_iff_exists.mp (mem_iff_isSome_getElem?.mp hj')
    refine ⟨hrange.source i (mem_iff_isSome_getElem?.mpr (by rw [hrow]; rfl)),
      not_mem_nil, mem_map.mpr ⟨(j, p), mem_outEdges.mpr ⟨tos, hrow, hp⟩, rfl⟩⟩
  · rintro ⟨-, -, hedge⟩
    obtain ⟨⟨_, p⟩, hmem, rfl⟩ := mem_map.mp hedge
    obtain ⟨tos, htos, hp⟩ := mem_outEdges.mp hmem
    refine ⟨(i, tos), mem_filter.mpr ⟨?_, decide_eq_true ?_⟩, rfl⟩
    · exact mem_toList_iff_getElem?_eq_some.mpr htos
    · exact mem_keys.mpr (mem_iff_isSome_getElem?.mpr (by rw [hp]; rfl))

lemma inDegrees_eq_ok : ∃ inDegree, inDegrees g n = .ok inDegree ∧ inDegree.length = n ∧
      ∀ j < n, inDegree[j]? = some (unplaced g n [] j).card := by
  obtain ⟨inDegree, hfold, hlen, hget⟩ := foldlM_inDegrees g.toList (replicate n 0)
    length_replicate (by
      rintro ⟨i, tos⟩ hrow
      rw [mem_toList_iff_getElem?_eq_some] at hrow
      refine ⟨hrange.source i (mem_iff_isSome_getElem?.mpr (by rw [hrow]; rfl)), ?_⟩
      intro j hj
      obtain ⟨p, hp⟩ := Option.isSome_iff_exists.mp
        (mem_iff_isSome_getElem?.mp (mem_keys.mp hj))
      exact hrange.target i j p ⟨tos, hrow, hp⟩)
  refine ⟨inDegree, hfold, hlen, fun j hj => ?_⟩
  rw [hget, getElem?_replicate_of_lt hj, sum_count_eq_card hrange]
  simp

/-- **Kahn.**  On a graph without cycles the sort succeeds, and what it returns is a
stratification. -/
theorem generalizedKahn_layered (hwf : WellFounded fun i j => ∃ p, LabelledEdge g i j p) :
    ∃ strata, generalizedKahn g n = .ok strata ∧ Layered g n strata := by
  obtain ⟨inDegree, hdegrees, hlen, hget⟩ := inDegrees_eq_ok hrange
  have hmem : ∀ j, j ∈ ((range n).filter fun node => inDegree[node]? = some 0).reverse ↔
      inDegree[j]? = some 0 := by
    intro j
    rw [mem_reverse, mem_filter, mem_range, decide_eq_true_iff]
    exact ⟨And.right, fun h => ⟨hlen ▸ (List.getElem_of_getElem? h).1, h⟩⟩
  have hinv : KahnInv g n [] []
      ⟨inDegree, ((range n).filter fun node => inDegree[node]? = some 0).reverse, ∅⟩ [] :=
    { length := hlen
      nodup := nodup_reverse.mpr (Nodup.filter _ nodup_range)
      inRange := fun j hj => hlen ▸ (List.getElem_of_getElem? ((hmem j).mp hj)).1
      degree := hget
      zero := fun j hj => (hmem j).mp hj
      ready := fun j hj => .inl ((hmem j).mpr hj)
      waits := fun j hj => absurd hj Std.TreeSet.not_mem_emptyc
      poisoned := fun i hi => absurd hi not_mem_nil
      orderRet := fun k stratum hk => nomatch hk
      orderCurrent := fun j hj i p hij => by
        have hzero := (hmem j).mp hj
        have hjn : j < n := hlen ▸ (List.getElem_of_getElem? hzero).1
        have hcard := (hget j hjn).symm.trans hzero
        exact absurd (KahnInv.mem_of_unplaced_eq_zero hrange (Option.some.inj hcard) hij)
          not_mem_nil
      nonempty := fun stratum hstratum => absurd hstratum not_mem_nil
      currentNonempty := fun j hj => absurd hj Std.TreeSet.not_mem_emptyc }
  obtain ⟨strata, rest, hloop, hzero, hlayered⟩ := hinv.kahnLoop hrange hwf
  refine ⟨strata, ?_, hlayered⟩
  have hall : rest.all (fun d => decide (d = 0)) = true :=
    all_eq_true.mpr fun d hd => decide_eq_true (hzero d hd)
  rw [generalizedKahn, hdegrees]
  simp [bind, Except.bind, hloop, hall]

end Kyzo

import Kyzo.Lib.Except
import Kyzo.Lib.RankSelect

/-!
# Sorted runs of gathered rows

The parts of a sort-merge join.  `gather` reads the columns of a row at given positions,
`storeOrder` puts chosen columns first and `invertOrder` finds the way back.  In a run sorted by a
key, the rows with one key lie together: a partition point finds the first of them, and they go on
as long as the key does.
-/

namespace Kyzo

open List

/-! ## Columns in another order -/

section

variable {α β : Type*}

lemma forall_mem_iff_of_forall₂ {R : α → β → Prop} {P : α → Prop} {Q : β → Prop} {l : List α}
    {m : List β} (h : List.Forall₂ R l m) (hR : ∀ a b, R a b → (P a ↔ Q b)) :
    (∀ a ∈ l, P a) ↔ ∀ b ∈ m, Q b := by
  induction h with
  | nil => simp
  | cons hab _ ih => rw [forall_mem_cons, forall_mem_cons, hR _ _ hab, ih]

variable {l : List β} {n : ℕ}

lemma map_insertionSort_eq_range (f : β → ℕ) (h : (l.map f).Perm (range n)) :
    (l.insertionSort fun a b => f a ≤ f b).map f = range n := by
  have hsorted := pairwise_insertionSort (fun a b : β => f a ≤ f b) l
  have hmap : ((l.insertionSort fun a b => f a ≤ f b).map f).Pairwise (· ≤ ·) :=
    pairwise_map.mpr hsorted
  have hrange : (range n).Pairwise (· ≤ ·) := pairwise_lt_range.imp Nat.le_of_lt
  refine List.Perm.eq_of_pairwise (fun _ _ _ _ => Nat.le_antisymm) hmap hrange ?_
  exact ((perm_insertionSort _ l).map f).trans h

lemma getElem?_of_map_eq_range {f : β → ℕ} (h : l.map f = range n) {x : β} (hx : x ∈ l) :
    l[f x]? = some x := by
  obtain ⟨i, hi⟩ := mem_iff_getElem?.mp hx
  have hget := congrArg (·[i]?) h
  simp only [getElem?_map, hi, Option.map_some] at hget
  rwa [← (List.getElem_of_getElem? hget.symm).2, List.getElem_range]

/-- The columns of a row at positions, if it has them. -/
def gather (row : List α) (cols : List ℕ) : Option (List α) := cols.mapM (row[·]?)

variable {row : List α} {cols : List ℕ} {out : List α}

lemma gather_eq_some : gather row cols = some out ↔ cols.map (row[·]?) = out.map some :=
  mapM_eq_some

lemma exists_gather {cols : List ℕ} (h : ∀ c ∈ cols, c < row.length) :
    ∃ out, gather row cols = some out := by
  refine ⟨cols.pmap (fun c hc => row[c]) h, gather_eq_some.mpr ?_⟩
  rw [map_pmap, ← pmap_eq_map (H := h)]
  exact pmap_congr_left _ fun c _ hc _ => getElem?_eq_getElem hc

variable (h : gather row cols = some out)
include h

lemma length_gather : cols.length = out.length := by
  simpa using congrArg length (gather_eq_some.mp h)

omit h in
lemma gather_perm {cols cols' : List ℕ} {out : List α} (hperm : cols.Perm cols')
    (h : gather row cols = some out) : ∃ out', gather row cols' = some out' ∧ out.Perm out' := by
  simp only [gather_eq_some, ← forall₂_eq_map] at h ⊢
  obtain ⟨out', hout', hperm'⟩ := perm_comp_forall₂ hperm.symm h
  exact ⟨out', hout', hperm'.symm⟩

lemma gather_take (n : ℕ) : gather row (cols.take n) = some (out.take n) := by
  rw [gather_eq_some] at h ⊢
  rw [map_take, map_take, h]

omit h in
lemma gather_range (h : n ≤ row.length) : gather row (range n) = some (row.take n) := by
  refine gather_eq_some.mpr (ext_getElem? fun i => ?_)
  by_cases hi : i < n
  · simp [hi, Nat.lt_of_lt_of_le hi h]
  · simp [hi]

/-- A column of a row that was gathered. -/
theorem getElem?_of_gather {i c : ℕ} (hc : cols[i]? = some c) : out[i]? = row[c]? := by
  have hget := congrArg (·[i]?) (gather_eq_some.mp h)
  simp only [getElem?_map, hc, Option.map_some] at hget
  obtain ⟨v, hv, hrow⟩ := Option.map_eq_some_iff.mp hget.symm
  rw [hv, hrow]

omit h

/-- Chosen columns first, the others after them. -/
def storeOrder (first : List ℕ) (width : ℕ) : List ℕ :=
  first ++ (range width).filter (· ∉ first)

/-- Where each column went. -/
def invertOrder (order : List ℕ) : List ℕ :=
  (order.zipIdx.insertionSort fun a b => a.1 ≤ b.1).map Prod.snd

lemma storeOrder_perm {first : List ℕ} {width : ℕ} (hnodup : first.Nodup)
    (hlt : ∀ c ∈ first, c < width) : (storeOrder first width).Perm (range width) := by
  have hdisjoint : first.Disjoint ((range width).filter (· ∉ first)) := by
    intro c hc hc'
    simp [hc] at hc'
  refine (perm_ext_iff_of_nodup ?_ nodup_range).mpr fun c => ?_
  · exact hnodup.append (nodup_range.filter _) hdisjoint
  · by_cases hc : c ∈ first
    · simp [storeOrder, hc, hlt c hc]
    · simp [storeOrder, hc]

lemma gather_invertOrder {row stored : List α} {order : List ℕ}
    (hperm : order.Perm (range row.length)) (h : gather row order = some stored) :
    gather stored (invertOrder order) = some row := by
  set sorted := order.zipIdx.insertionSort fun a b => a.1 ≤ b.1 with hsorted
  have hsortedPerm : sorted.Perm order.zipIdx := perm_insertionSort _ _
  -- The sorted columns count up, so the entry at a position names that column.
  have hfst : sorted.map Prod.fst = range row.length :=
    map_insertionSort_eq_range Prod.fst (by rw [zipIdx_map_fst]; exact hperm)
  have hread : ∀ e ∈ sorted, stored[e.2]? = row[e.1]? := fun e he =>
    getElem?_of_gather h (mem_zipIdx_iff_getElem?.mp (hsortedPerm.mem_iff.mp he))
  have hrow := gather_eq_some.mp (gather_range (le_refl row.length))
  rw [take_length, ← hfst, map_map] at hrow
  rw [gather_eq_some, ← hrow, invertOrder, map_map]
  exact map_congr_left hread

end

/-! ## The rows with one key -/

section

variable {κ β : Type*} [Ord κ] [DecidableEq κ]

/-- The rows of a run from the first that is not below a key, as long as they have the key. -/
def equalRun (f : β → κ) (key : κ) (run : List β) : List β :=
  (run.drop (partitionPoint (fun s => compare (f s) key == .lt) run)).takeWhile (f · = key)

/-- **In a sorted run the rows with one key lie together.** -/
theorem equalRun_eq [Std.TransOrd κ] [Std.LawfulEqOrd κ] {f : β → κ} {run : List β}
    (h : run.Pairwise fun a b => (compare (f a) (f b)).isLE = true) (key : κ) :
    equalRun f key run = run.filter (f · = key) := by
  have hswitch : run.Pairwise fun a b =>
      (compare (f b) key == .lt) = true → (compare (f a) key == .lt) = true := by
    refine h.imp fun hab hb => ?_
    rw [beq_iff_eq] at hb ⊢
    exact Std.TransCmp.lt_of_isLE_of_lt hab hb
  rw [equalRun, partitionPoint_eq hswitch]
  clear hswitch
  induction run with
  | nil => rfl
  | cons a run ih =>
    obtain ⟨ha, hrun⟩ := pairwise_cons.mp h
    rcases hcmp : compare (f a) key with _ | _ | _
    · -- Below the key: the row comes before the partition point.
      have hne : f a ≠ key := by
        rintro rfl
        rw [Std.ReflOrd.compare_self] at hcmp
        cases hcmp
      rw [countP_cons_of_pos (by simp [hcmp]), drop_succ_cons, ih hrun,
        filter_cons_of_neg (by simpa using hne)]
    all_goals
      have hzero : run.countP (fun s => compare (f s) key == .lt) = 0 := by
        rw [countP_eq_zero]
        intro b hb hlt
        have hlt := Std.TransCmp.lt_of_isLE_of_lt (ha b hb) (beq_iff_eq.mp hlt)
        rw [hcmp] at hlt
        cases hlt
      have ih := ih hrun
      rw [hzero, drop_zero] at ih
      rw [countP_cons_of_neg (by simp [hcmp]), hzero, drop_zero]
    · have heq : f a = key := Std.LawfulEqOrd.eq_of_compare hcmp
      rw [takeWhile_cons_of_pos (by simpa using heq), ih, filter_cons_of_pos (by simpa using heq)]
    · -- Above the key nothing follows that has it.
      have hnone : ∀ b ∈ a :: run, ¬ f b = key := by
        rintro b hb rfl
        rcases mem_cons.mp hb with rfl | hb
        · rw [Std.ReflOrd.compare_self] at hcmp
          cases hcmp
        · have hle := ha b hb
          rw [hcmp] at hle
          cases hle
      rw [takeWhile_cons_of_neg (by simpa using hnone a (.head _)), eq_comm, filter_eq_nil_iff]
      intro b hb
      simpa using hnone b hb

end

end Kyzo

import Kyzo.Value.ArenaRefinement

/-!
# Sealing an epoch

A seal computes the new ranks of the delta's values, drains the delta into a run, cascades run
merges and advances the epoch.  Merging reorganises which run holds a value and leaves the union
alone; the ranks it mints are the codes of the same values in the new epoch.
-/

namespace Kyzo

open List View.Represents Naive

/-! ## Cascading merges -/

lemma eq_of_takeGeometricMergePair {runs rest : List Run} {a b : Run}
    (h : takeGeometricMergePair runs = some ((a, b), rest)) : runs = rest ++ [a, b] := by
  unfold takeGeometricMergePair at h
  by_cases hlen : runs.length < 2
  · rw [if_pos hlen] at h
    cases h
  rw [if_neg hlen] at h
  simp only at h
  split at h
  · cases h
  cases h
  have hdrop : runs.drop (runs.length - 2) =
      [runs.getD (runs.length - 2) ⟨[]⟩, runs.getD (runs.length - 1) ⟨[]⟩] := by
    rw [drop_eq_getElem_cons (show runs.length - 2 < runs.length by omega),
      drop_eq_getElem_cons (show runs.length - 2 + 1 < runs.length by omega),
      drop_eq_nil_of_le (by omega), getD_eq_getElem _ _ (by omega), getD_eq_getElem _ _ (by omega)]
    congr 3
    omega
  rw [← hdrop, take_append_drop]

lemma runKeys_append (store : Store) (runs runs' : List Run) :
    runKeys store (runs ++ runs') = runKeys store runs ++ runKeys store runs' :=
  flatMap_append

lemma Run.Lawful.merge {h : Heap} {a b : Run} (ha : a.Lawful h.payload) (hb : b.Lawful h.payload)
    (hdisj : (keys h.payload a.entries ++ keys h.payload b.entries).Nodup)
    (hlen : (keys h.payload a.entries ++ keys h.payload b.entries).length ≤ u32Max) :
    ∃ m, a.merge b h = .ok m ∧ m.Lawful h.payload ∧
      (keys h.payload m.entries).Perm (keys h.payload a.entries ++ keys h.payload b.entries) ∧
      ∀ e ∈ m.entries, e ∈ a.entries ∨ e ∈ b.entries := by
  have hcmp : ∀ x ∈ a.entries, ∀ y ∈ b.entries,
      x.cmpEntry y h.payload = compare (h.payload x.span) (h.payload y.span) :=
    fun x hx y hy => (ha.valid x hx).cmpEntry_eq (hb.valid y hy)
  have hkeys : keys h.payload
      (mergeDedup (fun x y => x.cmpEntry y h.payload) a.entries b.entries) =
      mergeDedup compare (keys h.payload a.entries) (keys h.payload b.entries) :=
    map_mergeDedup hcmp
  have hne : ∀ x ∈ keys h.payload a.entries, ∀ y ∈ keys h.payload b.entries,
      compare x y ≠ .eq := by
    intro x hx y hy heq
    exact (nodup_append.mp hdisj).2.2 x hx y hy (Std.LawfulEqOrd.eq_of_compare heq)
  have hfit : ¬ u32Max < a.entries.length + b.entries.length := by
    rw [length_append, keys, keys, length_map, length_map] at hlen
    omega
  refine ⟨_, if_neg hfit, ⟨?_, ?_⟩, ?_, fun e he => mem_of_mem_mergeDedup he⟩
  · intro e he
    rcases mem_of_mem_mergeDedup he with he | he
    · exact ha.valid e he
    · exact hb.valid e he
  · rw [hkeys]
    exact ascending_mergeDedup ha.ascending hb.ascending
  · rw [hkeys]
    exact mergeDedup_perm hne

/-- **Cascades keep the union**: the loop never refuses on disjoint lawful runs within the position
space, and leaves lawful runs with the same payloads. -/
theorem cascade_ok {h : Heap} (bound : ℕ) {runs : List Run}
    (hlawful : ∀ r ∈ runs, r.Lawful h.payload) (hnodup : (runKeys h.payload runs).Nodup)
    (hlen : (runKeys h.payload runs).length ≤ u32Max) :
    ∃ runs', cascade h bound runs = (.ok (), runs') ∧ (∀ r ∈ runs', r.Lawful h.payload) ∧
      (runKeys h.payload runs').Perm (runKeys h.payload runs) ∧
      ∀ r ∈ runs', ∀ e ∈ r.entries, ∃ r₀ ∈ runs, e ∈ r₀.entries := by
  induction bound generalizing runs with
  | zero => exact ⟨runs, rfl, hlawful, .refl _, fun r hr e he => ⟨r, hr, he⟩⟩
  | succ bound ih =>
    rw [cascade]
    rcases htake : takeGeometricMergePair runs with _ | ⟨⟨a, b⟩, rest⟩
    · exact ⟨runs, rfl, hlawful, .refl _, fun r hr e he => ⟨r, hr, he⟩⟩
    -- One merge replaces the last two runs by one with their payloads.
    have hruns := eq_of_takeGeometricMergePair htake
    have hpair : runKeys h.payload runs = runKeys h.payload rest ++
        (keys h.payload a.entries ++ keys h.payload b.entries) := by
      rw [hruns]
      simp [runKeys]
    have hpairNodup := hnodup
    have hpairLen := hlen
    rw [hpair] at hpairNodup hpairLen
    rw [length_append] at hpairLen
    obtain ⟨m, hm, hml, hmperm, hmsub⟩ := Run.Lawful.merge (hlawful a (by simp [hruns]))
      (hlawful b (by simp [hruns])) (nodup_append.mp hpairNodup).2.1 (by omega)
    have hperm : (runKeys h.payload (rest ++ [m])).Perm (runKeys h.payload runs) := by
      rw [hpair, runKeys_append]
      refine List.Perm.append_left _ ?_
      simpa [runKeys] using hmperm
    have hrest : ∀ r ∈ rest ++ [m], r.Lawful h.payload := forall_mem_append.mpr
      ⟨fun r hr => hlawful r (by simp [hruns, hr]), forall_mem_singleton.mpr hml⟩
    obtain ⟨runs', hrun, hl', hp', hs'⟩ := ih hrest (hperm.nodup_iff.mpr hnodup)
      (by rw [hperm.length_eq]; exact hlen)
    simp only [hm]
    refine ⟨runs', hrun, hl', hp'.trans hperm, ?_⟩
    intro r hr e he
    obtain ⟨r₀, hr₀, he₀⟩ := hs' r hr e he
    rcases mem_append.mp hr₀ with hr₀ | hr₀
    · exact ⟨r₀, by simp [hruns, hr₀], he₀⟩
    · rw [mem_singleton.mp hr₀] at he₀
      rcases hmsub e he₀ with he₁ | he₁
      · exact ⟨a, by simp [hruns], he₁⟩
      · exact ⟨b, by simp [hruns], he₁⟩

/-! ## The new ranks -/

/-- Setting each listed position `i` to `F i`. -/
theorem getElem?_foldl_set (F : ℕ → ℕ) (is t : List ℕ) (k : ℕ) :
    (is.foldl (fun t i => t.set i (F i)) t)[k]? =
      if k ∈ is then t[k]?.map fun _ => F k else t[k]? := by
  induction is generalizing t with
  | nil => simp
  | cons i is ih =>
    rw [foldl_cons, ih]
    by_cases hik : i = k
    · subst hik
      by_cases hlt : i < t.length
      · simp [hlt]
      · simp [hlt]
    · have hki : k ≠ i := fun h => hik h.symm
      simp [hik, hki]

namespace Arena

variable {a : Arena} {n : Naive}

/-- The rank in the union of the tail value that arrived at a position. -/
def tailRank (n : Naive) (i : ℕ) : ℕ := rankIn n.values (n.tail.getD i [])

section

variable (h : a.Simulates n)
include h

lemma Simulates.payload_arrival {i : ℕ} (hi : i ∈ a.delta.sorted) :
    a.heap.payload (a.delta.arrivals.getD i default).span = n.tail.getD i [] := by
  have hlt : i < a.delta.arrivals.length := h.represents.lt_of_mem_sorted hi
  have htail : n.tail[i]? = (keys a.heap.payload a.delta.arrivals)[i]? :=
    congrArg (fun l => l[i]?) h.represents.tail_eq.symm
  rw [getD_eq_getElem?_getD, getD_eq_getElem?_getD, htail, keys, getElem?_map,
    getElem?_eq_getElem hlt]
  rfl

lemma Simulates.deltaKeys_eq :
    deltaKeys a.frame.view = a.delta.sorted.map fun i => n.tail.getD i [] :=
  map_congr_left fun _ hi => h.payload_arrival hi

/-- The sorted delta's `j`-th value is a tail value of rank `j` that no run holds. -/
theorem Simulates.sorted_value {j : ℕ} (hj : j < a.delta.sorted.length) :
    n.tail.getD a.delta.sorted[j] [] ∈ n.tail ∧ n.tail.getD a.delta.sorted[j] [] ∉ n.sealed ∧
      rankIn n.tail (n.tail.getD a.delta.sorted[j] []) = j := by
  have hkeys := h.deltaKeys_eq
  have hlen : j < (deltaKeys a.frame.view).length := by
    rw [hkeys, length_map]
    exact hj
  have hget : (deltaKeys a.frame.view)[j] = n.tail.getD a.delta.sorted[j] [] := by
    simp [hkeys, getElem_map]
  have hmem : n.tail.getD a.delta.sorted[j] [] ∈ n.tail := by
    rw [← hget]
    exact h.represents.deltaKeys_perm.mem_iff.mp (getElem_mem hlen)
  refine ⟨hmem, fun hs => ?_, ?_⟩
  · exact (nodup_append.mp h.represents.nodup).2.2 _ hs _ hmem rfl
  · rw [← hget, ← rankIn_perm h.represents.deltaKeys_perm]
    exact rankIn_getElem h.represents.sorted_ascending hlen

lemma Simulates.sealRanks_eq {js : List ℕ}
    (hjs : ∀ j ∈ js, j < a.delta.sorted.length) (inserted tail : List ℕ) :
    a.sealRanks js (inserted, tail) =
      .ok (inserted ++ js.map (fun j => tailRank n (a.delta.sorted.getD j 0)),
        (js.map fun j => a.delta.sorted.getD j 0).foldl (fun t i => t.set i (tailRank n i))
          tail) := by
  induction js generalizing inserted tail with
  | nil => simp [sealRanks]
  | cons j js ih =>
    have hj := hjs j (.head _)
    have hindex : a.delta.sorted.getD j 0 = a.delta.sorted[j] := by simp [hj]
    have hsorted : a.delta.sorted.getD j 0 ∈ a.delta.sorted := by
      rw [hindex]
      exact getElem_mem hj
    obtain ⟨-, hnot, hrank⟩ := h.sorted_value hj
    rw [← hindex] at hnot hrank
    have hvalid := h.represents.valid_of_mem_sorted hsorted
    have hpay := h.payload_arrival hsorted
    set value := n.tail.getD (a.delta.sorted.getD j 0) [] with hvalue
    have hpre : (a.delta.entryByRank j).pre = prefix4 value := by
      rw [← hpay]
      exact hvalid.pre_eq
    have hle : value.length ≤ u32Max := by
      rw [← hpay]
      exact hvalid.len_eq.le.trans hvalid.len_le
    have hsealed : sealedRank a.runs (a.delta.entryByRank j).pre
        (a.heap.payload (a.delta.entryByRank j).span) a.heap.payload =
        .ok (rankIn n.sealed value) := by
      rw [hpre, show a.heap.payload (a.delta.entryByRank j).span = _ from hpay, sealedRank]
      have hsearch := h.represents.searchRuns_sealed hle
      simp only [frame] at hsearch
      simp only [hsearch, hnot, decide_false, Bool.false_eq_true, if_false]
    have hnew : asU32 (rankIn n.sealed value + j) = tailRank n (a.delta.sorted.getD j 0) := by
      have hsum : rankIn n.sealed value + j = tailRank n (a.delta.sorted.getD j 0) := by
        rw [tailRank, values, rankIn_append, hrank]
      rw [hsum]
      refine h.asU32_eq ?_
      rw [← length_values]
      exact rankIn_le_length _ _
    rw [sealRanks]
    simp only [hsealed, hnew, bind, Except.bind]
    rw [ih fun j' hj' => hjs j' (.tail _ hj')]
    simp

lemma Simulates.sealRanks_range : a.sealRanks (range a.delta.arrivals.length)
        ([], replicate a.delta.arrivals.length 0) =
      .ok (a.delta.sorted.map (tailRank n), n.tail.map (rankIn n.values)) := by
  have hlen : a.delta.sorted.length = a.delta.arrivals.length := by
    have hperm := h.represents.sorted_perm.length_eq
    rwa [length_range] at hperm
  have htail : a.delta.arrivals.length = n.tail.length := by
    rw [← h.represents.tail_eq, keys, length_map]
    rfl
  rw [h.sealRanks_eq fun j hj => by rw [hlen]; exact mem_range.mp hj]
  have hpos : (range a.delta.arrivals.length).map (fun j => a.delta.sorted.getD j 0) =
      a.delta.sorted := by
    rw [← hlen]
    exact map_getD_range a.delta.sorted 0
  have hins : (range a.delta.arrivals.length).map
      (fun j => tailRank n (a.delta.sorted.getD j 0)) = a.delta.sorted.map (tailRank n) := by
    conv_rhs => rw [← hpos]
    rw [map_map]
    rfl
  rw [hpos]
  congr 2
  refine ext_getElem? fun i => ?_
  rw [getElem?_foldl_set, htail, getElem?_replicate, getElem?_map]
  have hmem : i ∈ a.delta.sorted ↔ i < n.tail.length := by
    rw [← htail, ← mem_range]
    exact h.represents.sorted_perm.mem_iff
  by_cases hi : i < n.tail.length
  · rw [if_pos (hmem.mpr hi)]
    simp [tailRank, hi]
  · rw [if_neg fun hs => hi (hmem.mp hs), if_neg hi, getElem?_eq_none (not_lt.mp hi)]
    rfl

end

/-! ## The remap -/

/-- The remap a seal mints. -/
def sealRemap (a : Arena) (n : Naive) : EpochRemap :=
  ⟨a.id, a.epoch, a.epoch + 1, n.sealed.length, a.delta.sorted.map (tailRank n),
    n.tail.map (rankIn n.values)⟩

variable (h : a.Simulates n)
include h

lemma Simulates.partitionPoint_inserted {r : ℕ} (hr : r < n.sealed.length) :
    partitionPoint (fun (d, i) => d - i ≤ r) (a.delta.sorted.map (tailRank n)).zipIdx =
      rankIn n.tail n.sealed[r] := by
  have hkeys : (a.delta.sorted.map (tailRank n)).zipIdx.map
      (fun p => n.tail.getD (a.delta.sorted.getD p.2 0) []) =
      deltaKeys a.frame.view := by
    rw [h.deltaKeys_eq]
    refine ext_getElem (by simp) fun i hi _ => ?_
    simp only [length_map, length_zipIdx] at hi
    simp [hi]
  rw [← rankIn_perm h.represents.deltaKeys_perm, ← hkeys]
  refine partitionPoint_keys ?_ (by rw [hkeys]; exact h.represents.sorted_ascending)
  rintro ⟨d, i⟩ hd
  rw [mem_zipIdx_iff_getElem?, List.getElem?_map, Option.map_eq_some_iff] at hd
  simp only at hd
  obtain ⟨p, hp, rfl⟩ := hd
  obtain ⟨hi, rfl⟩ := List.getElem_of_getElem? hp
  obtain ⟨hmem, hnot, hrank⟩ := h.sorted_value hi
  have hindex : a.delta.sorted.getD i 0 = a.delta.sorted[i] := by simp [hi]
  -- The inserted rank less its position is the rank among the sealed values.
  have hsub : tailRank n a.delta.sorted[i] - i =
      rankIn n.sealed (n.tail.getD a.delta.sorted[i] []) := by
    rw [tailRank, values, rankIn_append, hrank, Nat.add_sub_cancel]
  simp only [hindex, hsub, decide_eq_true_eq]
  have hlt := compare_getElem_eq_lt_iff h.represents.sealed_ascending hr
    (n.tail.getD a.delta.sorted[i] [])
  rw [← not_lt, ← hlt]
  constructor
  · intro hge
    rcases hc : compare (n.tail.getD a.delta.sorted[i] []) n.sealed[r]
    · rfl
    · rw [Std.LawfulEqOrd.eq_of_compare hc] at hnot
      exact absurd (getElem_mem hr) hnot
    · exact absurd (Std.OrientedCmp.gt_iff_lt.mp hc) hge
  · intro hc hgt
    rw [Std.OrientedCmp.gt_iff_lt.mpr hc] at hgt
    cases hgt

variable {c : ℕ} {v : Bytes}

lemma Simulates.applyRaw_sealRemap (hv : n.values[c]? = some v) :
    (a.sealRemap n).applyRaw c = .ok (rankIn n.values v) := by
  rw [EpochRemap.applyRaw]
  rw [values, List.getElem?_append] at hv
  by_cases hc : c < n.sealed.length
  · rw [if_pos hc, List.getElem?_eq_getElem hc, Option.some_inj] at hv
    have hpoint := h.partitionPoint_inserted hc
    have hsum : c + rankIn n.tail v = rankIn n.values v := by
      rw [values, rankIn_append, ← hv, rankIn_getElem h.represents.sealed_ascending hc]
    have hfit : rankIn n.values v ≤ u32Max := by
      refine (rankIn_le_length _ _).trans ?_
      rw [length_values]
      exact h.len_le
    rw [hv] at hpoint
    have hfrom : c < (a.sealRemap n).fromSealedLen := hc
    rw [if_pos hfrom]
    simp only [sealRemap, hpoint, hsum, if_pos hfit]
  · rw [if_neg hc] at hv
    obtain ⟨hlt, hval⟩ := List.getElem_of_getElem? hv
    have hfrom : ¬ c < (a.sealRemap n).fromSealedLen := hc
    rw [if_neg hfrom]
    simp [sealRemap, getD_eq_getElem?_getD, hlt, hval]

/-- **The remap**: every live code goes to the rank of its value in the union. -/
theorem Simulates.apply_sealRemap (hv : n.values[c]? = some v) :
    (a.sealRemap n).apply (a.stamp c) = .ok ⟨rankIn n.values v, a.epoch + 1, a.id⟩ := by
  have hshared : proveShared (a.sealRemap n).arena (a.sealRemap n).source (a.stamp c).arena
      (a.stamp c).epoch = .ok () := by
    simp [proveShared, sealRemap, stamp]
  rw [EpochRemap.apply, hshared]
  rw [show (a.stamp c).code = c from rfl, h.applyRaw_sealRemap hv]
  rfl

/-! ## The seal -/

lemma Simulates.deltaRun_lawful : a.deltaRun.Lawful a.heap.payload ∧
      (keys a.heap.payload a.deltaRun.entries).Perm n.tail ∧
      ∀ e ∈ a.deltaRun.entries, e ∈ a.delta.arrivals := by
  have hkeys : keys a.heap.payload a.deltaRun.entries =
      deltaKeys a.frame.view := map_map
  refine ⟨⟨?_, ?_⟩, ?_, ?_⟩
  · intro e he
    obtain ⟨i, hi, rfl⟩ := mem_map.mp he
    exact h.represents.valid_of_mem_sorted hi
  · rw [hkeys]
    exact h.represents.sorted_ascending
  · rw [hkeys]
    exact h.represents.deltaKeys_perm
  · intro e he
    obtain ⟨i, hi, rfl⟩ := mem_map.mp he
    exact h.represents.arrival_mem hi

lemma Simulates.drain_ok : ∃ runs, (if a.delta.arrivals.length = 0 then (.ok (), a.runs)
        else cascade a.heap (a.runs ++ [a.deltaRun]).length (a.runs ++ [a.deltaRun])) =
        (.ok (), runs) ∧ (∀ r ∈ runs, r.Lawful a.heap.payload) ∧
      (runKeys a.heap.payload runs).Perm n.values ∧
      ∀ r ∈ runs, ∀ e ∈ r.entries, e ∈ a.frame.view.entries := by
  have hrep := h.represents
  have hsub : ∀ r ∈ a.runs, ∀ e ∈ r.entries, e ∈ a.frame.view.entries := fun r hr e he =>
    mem_append_left _ (mem_flatMap.mpr ⟨r, hr, he⟩)
  by_cases hzero : a.delta.arrivals.length = 0
  · have htail : n.tail = [] := by
      rw [← length_eq_zero_iff, ← hrep.tail_eq, keys, length_map]
      exact hzero
    refine ⟨a.runs, if_pos hzero, hrep.runs_lawful, ?_, hsub⟩
    rw [values, htail, append_nil]
    exact hrep.sealed_perm
  · obtain ⟨hlawful, hkeys, harr⟩ := h.deltaRun_lawful
    have hperm : (runKeys a.heap.payload (a.runs ++ [a.deltaRun])).Perm n.values := by
      rw [runKeys_append]
      refine hrep.sealed_perm.append ?_
      simpa [runKeys] using hkeys
    have hall : ∀ r ∈ a.runs ++ [a.deltaRun], r.Lawful a.heap.payload :=
      forall_mem_append.mpr ⟨hrep.runs_lawful, forall_mem_singleton.mpr hlawful⟩
    obtain ⟨runs, hrun, hruns, hp, hs⟩ := cascade_ok (a.runs ++ [a.deltaRun]).length hall
      (hperm.nodup_iff.mpr hrep.nodup) (by
        rw [hperm.length_eq, length_values]
        exact h.len_le)
    refine ⟨runs, by rw [if_neg hzero, hrun], hruns, hp.trans hperm, ?_⟩
    intro r hr e he
    obtain ⟨r₀, hr₀, he₀⟩ := hs r hr e he
    rcases mem_append.mp hr₀ with hr₀ | hr₀
    · exact hsub r₀ hr₀ e he₀
    · rw [mem_singleton.mp hr₀] at he₀
      exact mem_append_right _ (harr e he₀)

/-- **Sealing refines the naive dictionary**: it mints the remap and simulates the dictionary of the
next epoch. -/
theorem Simulates.sealEpoch (hepoch : a.epoch + 1 < 2 ^ 64) :
    ∃ a', a.sealEpoch = (.ok (a.sealRemap n), a') ∧ a'.id = a.id ∧ a'.heap = a.heap ∧
      a'.epoch = a.epoch + 1 ∧ a'.Simulates n.sealEpoch.2 := by
  have hrep := h.represents
  obtain ⟨runs, hdrain, hlawful, hperm, hentries⟩ := h.drain_ok
  have hsealed : a.sealedLen = n.sealed.length := hrep.sealedLen_eq
  have hfrom : asU32 n.sealed.length = n.sealed.length := h.asU32_eq (Nat.le_add_right _ _)
  have hlen : a.sealedLen + a.delta.arrivals.length = (sortAll n.values).length := by
    rw [(sortAll_perm n.values).length_eq, length_values]
    exact hrep.len_eq
  refine ⟨{ a with
    delta := Delta.new
    runs := runs
    sealedLen := a.sealedLen + a.delta.arrivals.length
    epoch := a.epoch + 1 }, ?_, rfl, rfl, rfl, ⟨?_, ?_, ?_, ?_⟩⟩
  · rw [Arena.sealEpoch, h.sealRanks_range]
    simp only [hdrain, if_pos hepoch, hsealed, hfrom]
    rfl
  · refine ⟨hlawful, ?_, hperm.trans (sortAll_perm _).symm, ascending_sortAll hrep.nodup, hlen,
      rfl, ?_, List.Perm.refl _, List.Pairwise.nil⟩
    · intro e he
      cases he
    · rw [Naive.values, Naive.sealEpoch, append_nil]
      exact (sortAll_perm _).nodup_iff.mpr hrep.nodup
  · intro e he
    rcases mem_append.mp he with he | he
    · obtain ⟨r, hr, her⟩ := mem_flatMap.mp he
      exact h.holds e (hentries r hr e her)
    · cases he
  · show a.epoch + 1 = n.epoch + 1
    rw [h.epoch_eq]
  · show (sortAll n.values).length + 0 ≤ u32Max
    rw [(sortAll_perm n.values).length_eq, length_values]
    exact h.len_le

end Arena

end Kyzo

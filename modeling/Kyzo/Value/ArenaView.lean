import Kyzo.Value.ArenaEntries

/-!
# What an observer of the arena answers

A view represents a naive dictionary when its runs hold the sealed values and its delta the tail, in
the layouts the arena keeps.  Such a view answers every question exactly as the naive dictionary
does, whatever the partition into runs: the answers depend on the represented dictionary alone.
-/

namespace Kyzo

open List Naive Nat

/-- The view lays out the naive dictionary. -/
structure View.Represents (v : View) (n : Naive) : Prop where
  /-- Every run is valid and ascending. -/
  runs_lawful : ∀ r ∈ v.runs, r.Lawful v.store
  /-- Every delta entry is valid. -/
  arrivals_valid : ∀ e ∈ v.arrivals, e.Valid v.store
  /-- The runs hold the sealed values. -/
  sealed_perm : (runKeys v.store v.runs).Perm n.sealed
  sealed_ascending : Ascending compare n.sealed
  sealedLen_eq : v.sealedLen = n.sealed.length
  /-- The delta holds the tail in arrival order. -/
  tail_eq : keys v.store v.arrivals = n.tail
  /-- All values are distinct. -/
  nodup : n.values.Nodup
  /-- The sorted index is a permutation of the arrivals. -/
  sorted_perm : v.sorted.Perm (range v.arrivals.length)
  /-- It follows the payload order. -/
  sorted_ascending :
    Ascending compare (v.sorted.map fun i => v.store (v.arrivals.getD i default).span)

section

variable {β : Type*} (l : List β)

lemma map_getD_range (d : β) : (range l.length).map (fun i => l.getD i d) = l := by
  refine ext_getElem (by simp) ?_
  intro i h _
  simp only [length_map, length_range] at h
  simp [h]

lemma sum_zipIdx_of_lt (f : β → ℕ) {m r : ℕ} (h : r < m) :
    ((l.zipIdx m).map fun p => if p.2 = r then 0 else f p.1).sum = (l.map f).sum := by
  induction l generalizing m with
  | nil => rfl
  | cons x l ih =>
    have hne : m ≠ r := by omega
    rw [zipIdx_cons, map_cons, map_cons, sum_cons, sum_cons, ih (by omega), if_neg hne]

lemma sum_zipIdx_skip (f : β → ℕ) (m : ℕ) {r : ℕ} (hr : r < l.length) :
    ((l.zipIdx m).map fun p => if p.2 = m + r then 0 else f p.1).sum + f l[r] =
      (l.map f).sum := by
  induction l generalizing m r with
  | nil => simp at hr
  | cons x l ih =>
    rw [zipIdx_cons, map_cons, map_cons, sum_cons, sum_cons]
    rcases r with _ | r
    · rw [add_zero, if_pos rfl, sum_zipIdx_of_lt l f (lt_succ_self m), getElem_cons_zero]
      omega
    · have hstep := ih (m + 1) (by simpa using hr)
      have hshift : m + 1 + r = m + (r + 1) := by omega
      rw [hshift] at hstep
      have hne : m ≠ m + (r + 1) := by omega
      rw [if_neg hne, getElem_cons_succ, add_assoc, hstep]

end

namespace View.Represents

variable {v : View} {n : Naive} (h : v.Represents n)

include h

/-- The delta's payloads in sorted order. -/
def deltaKeys (v : View) : List Bytes :=
  v.sorted.map fun i => v.store (v.arrivals.getD i default).span

lemma deltaKeys_perm : (deltaKeys v).Perm n.tail := by
  have hmap := h.sorted_perm.map fun i => v.store (v.arrivals.getD i default).span
  have hrange : (range v.arrivals.length).map
      (fun i => v.store (v.arrivals.getD i default).span) = n.tail := by
    rw [← h.tail_eq, keys]
    conv_rhs => rw [← map_getD_range v.arrivals default]
    rw [map_map]
    rfl
  rwa [hrange] at hmap

variable {i : ℕ}

variable (hi : i ∈ v.sorted)
include hi

lemma lt_of_mem_sorted : i < v.arrivals.length := by
  have hmem := h.sorted_perm.mem_iff.mp hi
  simpa using hmem

lemma arrival_mem : v.arrivals.getD i default ∈ v.arrivals := by
  rw [getD_eq_getElem _ _ (h.lt_of_mem_sorted hi)]
  exact getElem_mem _

lemma valid_of_mem_sorted : (v.arrivals.getD i default).Valid v.store :=
  h.arrivals_valid _ (h.arrival_mem hi)

omit hi

lemma len_eq : v.len = n.len := by
  rw [View.len, Naive.len, h.sealedLen_eq, ← h.tail_eq, keys, length_map]

/-! ### Lower bounds and ranks -/

variable {e : Entry} {run : Run}

lemma lowerBoundIn_eq (hrun : run ∈ v.runs) (he : e.Valid v.store) :
    v.lowerBoundIn run e = rankIn (keys v.store run.entries) (v.store e.span) := by
  have hlawful := h.runs_lawful run hrun
  refine partitionPoint_keys ?_ hlawful.ascending
  intro x hx
  rw [decide_eq_true_iff, (hlawful.valid x hx).cmpEntry_eq he]

lemma lowerBoundDelta_eq (he : e.Valid v.store) :
    v.lowerBoundDelta e = rankIn n.tail (v.store e.span) := by
  rw [← rankIn_perm h.deltaKeys_perm]
  refine partitionPoint_keys ?_ h.sorted_ascending
  intro i hi
  rw [decide_eq_true_iff, (h.valid_of_mem_sorted hi).cmpEntry_eq he]

lemma sum_lowerBoundIn (he : e.Valid v.store) :
    (v.runs.map fun run => v.lowerBoundIn run e).sum = rankIn n.sealed (v.store e.span) := by
  have hmap : (v.runs.map fun run => v.lowerBoundIn run e) =
      v.runs.map fun run => rankIn (keys v.store run.entries) (v.store e.span) :=
    map_congr_left fun run hrun => h.lowerBoundIn_eq hrun he
  rw [hmap, ← rankIn_perm h.sealed_perm, runKeys, flatMap_def, rankIn_flatten, map_map]
  rfl

/-- The values over which a selection ranks. -/
def ranked (n : Naive) (withDelta : Bool) : List Bytes := if withDelta then n.values else n.sealed

variable {mid : ℕ}

omit h in
lemma getElem_keys (run : Run) (hmid : mid < run.entries.length) :
    (keys v.store run.entries)[mid]? = some (v.store (run.entries.getD mid default).span) := by
  rw [keys, getElem?_map, getD_eq_getElem _ _ hmid, getElem?_eq_getElem hmid]
  rfl

omit h in
lemma getD_mem (run : Run) (hmid : mid < run.entries.length) :
    run.entries.getD mid default ∈ run.entries := by
  rw [getD_eq_getElem _ _ hmid]
  exact getElem_mem hmid

omit h in
lemma rankIn_keys (hrun : run.Lawful v.store) (hmid : mid < run.entries.length) :
    rankIn (keys v.store run.entries) (v.store (run.entries.getD mid default).span) = mid := by
  have hlen : mid < (keys v.store run.entries).length := by
    rw [keys, length_map]
    exact hmid
  have hget := getElem_keys (v := v) run hmid
  rw [getElem?_eq_getElem hlen, Option.some_inj] at hget
  rw [← hget]
  exact rankIn_getElem hrun.ascending hlen

lemma globalRankInRun_eq {r : ℕ} (hr : r < v.runs.length)
    (hmid : mid < v.runs[r].entries.length) (withDelta : Bool) :
    v.globalRankInRun v.runs[r] r withDelta mid =
      rankIn (ranked n withDelta) (v.store (v.runs[r].entries.getD mid default).span) := by
  have hrun : v.runs[r] ∈ v.runs := getElem_mem hr
  have hlawful := h.runs_lawful _ hrun
  have hvalid := hlawful.valid _ (getD_mem v.runs[r] hmid)
  have hskip := sum_zipIdx_skip v.runs
    (fun run => v.lowerBoundIn run (v.runs[r].entries.getD mid default)) 0 hr
  have hself : v.lowerBoundIn v.runs[r] (v.runs[r].entries.getD mid default) = mid := by
    rw [h.lowerBoundIn_eq hrun hvalid, rankIn_keys hlawful hmid]
  rw [h.sum_lowerBoundIn hvalid, zero_add] at hskip
  have hranked : rankIn (ranked n withDelta) (v.store (v.runs[r].entries.getD mid default).span) =
      rankIn n.sealed (v.store (v.runs[r].entries.getD mid default).span) +
        if withDelta then v.lowerBoundDelta (v.runs[r].entries.getD mid default) else 0 := by
    cases withDelta with
    | false => rfl
    | true =>
      rw [ranked, if_pos rfl, if_pos rfl, values, rankIn_append, h.lowerBoundDelta_eq hvalid]
  rw [View.globalRankInRun]
  simp only
  omega

/-! ### Selection -/

omit h in
lemma rankIn_run_lt (hrun : run.Lawful v.store) {l : List Bytes}
    (hl : ∀ x ∈ keys v.store run.entries, x ∈ l) {j : ℕ} (hij : i < j)
    (hj : j < run.entries.length) : rankIn l (v.store (run.entries.getD i default).span) <
      rankIn l (v.store (run.entries.getD j default).span) := by
  have hi : i < run.entries.length := by omega
  have hkeys : (keys v.store run.entries).length = run.entries.length := length_map ..
  have hgi := getElem_keys (v := v) run hi
  have hgj := getElem_keys (v := v) run hj
  have hlt := pairwise_iff_getElem.mp hrun.ascending i j (by omega) (by omega) hij
  rw [getElem?_eq_getElem (by omega), Option.some_inj] at hgi hgj
  rw [hgi, hgj] at hlt
  exact rankIn_lt (hl _ (mem_map_of_mem (getD_mem run hi))) hlt

lemma mem_ranked (hrun : run ∈ v.runs) {x : Bytes}
    (hx : x ∈ keys v.store run.entries) (withDelta : Bool) : x ∈ ranked n withDelta := by
  have hsealed : x ∈ n.sealed :=
    h.sealed_perm.mem_iff.mp (mem_flatMap.mpr ⟨run, hrun, hx⟩)
  cases withDelta with
  | false => exact hsealed
  | true => exact mem_append_left _ hsealed

variable {r k : ℕ} {withDelta : Bool}

lemma selectIn_sound (hr : r < v.runs.length) (hsel : v.selectIn v.runs[r] r k withDelta = some e) :
    e ∈ v.runs[r].entries ∧ rankIn (ranked n withDelta) (v.store e.span) = k := by
  unfold View.selectIn at hsel
  split at hsel
  · next mid hmid =>
    cases hsel
    obtain ⟨hlt, heq⟩ := bisect_sound hmid
    rw [h.globalRankInRun_eq hr hlt, Nat.compare_eq_eq] at heq
    exact ⟨getD_mem _ hlt, heq⟩
  · cases hsel

lemma selectIn_isSome (hr : r < v.runs.length) (withDelta : Bool) (he : e ∈ v.runs[r].entries)
    (hk : rankIn (ranked n withDelta) (v.store e.span) = k) :
    (v.selectIn v.runs[r] r k withDelta).isSome := by
  obtain ⟨i, hi, rfl⟩ := getElem_of_mem he
  have hrun : v.runs[r] ∈ v.runs := getElem_mem hr
  have hlawful := h.runs_lawful _ hrun
  have hfound : bisect (fun mid => compare (v.globalRankInRun v.runs[r] r withDelta mid) k)
      v.runs[r].len = .ok i := by
    refine bisect_compare ?_ hi ?_
    · intro i' j' hij hj'
      rw [Run.len] at hj'
      rw [h.globalRankInRun_eq hr (by omega), h.globalRankInRun_eq hr hj']
      exact rankIn_run_lt hlawful (fun x hx => h.mem_ranked hrun hx withDelta) hij hj'
    · rw [h.globalRankInRun_eq hr hi, getD_eq_getElem _ _ hi, hk]
  rw [View.selectIn, hfound]
  rfl

lemma selectInRuns_sound (hsel : v.selectInRuns k withDelta = some e) :
    (∃ run ∈ v.runs, e ∈ run.entries) ∧ rankIn (ranked n withDelta) (v.store e.span) = k := by
  obtain ⟨⟨run, r⟩, hmem, hrun⟩ := exists_of_findSome?_eq_some hsel
  obtain ⟨hr, rfl⟩ : ∃ hr : r < v.runs.length, v.runs[r] = run := by
    have hzip := mk_mem_zipIdx_iff_getElem?.mp hmem
    exact List.getElem_of_getElem? hzip
  obtain ⟨he, hk⟩ := h.selectIn_sound hr hrun
  exact ⟨⟨_, getElem_mem hr, he⟩, hk⟩

lemma selectInRuns_isSome (withDelta : Bool) (hrun : run ∈ v.runs) (he : e ∈ run.entries)
    (hk : rankIn (ranked n withDelta) (v.store e.span) = k) :
    (v.selectInRuns k withDelta).isSome := by
  obtain ⟨r, hr, rfl⟩ := getElem_of_mem hrun
  rw [View.selectInRuns, findSome?_isSome_iff]
  refine ⟨(v.runs[r], r), ?_, h.selectIn_isSome hr withDelta he hk⟩
  exact mk_mem_zipIdx_iff_getElem?.mpr (getElem?_eq_getElem hr)

lemma exists_run_entry {x : Bytes} (hx : x ∈ n.sealed) :
    ∃ run ∈ v.runs, ∃ e ∈ run.entries, v.store e.span = x := by
  obtain ⟨run, hrun, hmem⟩ := mem_flatMap.mp (h.sealed_perm.mem_iff.mpr hx)
  obtain ⟨e, he, rfl⟩ := mem_map.mp hmem
  exact ⟨run, hrun, e, he, rfl⟩

lemma run_entry (hrun : run ∈ v.runs)
    (he : e ∈ run.entries) : e.Valid v.store ∧ v.store e.span ∈ n.sealed :=
  ⟨(h.runs_lawful run hrun).valid e he,
    h.sealed_perm.mem_iff.mp (mem_flatMap.mpr ⟨run, hrun, mem_map_of_mem he⟩)⟩

lemma selectSealed_ok (hk : k < n.sealed.length) :
    ∃ e, v.selectSealed k = .ok e ∧ e.Valid v.store ∧ n.sealed[k]? = some (v.store e.span) := by
  obtain ⟨run, hrun, e, he, hpay⟩ := h.exists_run_entry (getElem_mem hk)
  have hrank : rankIn (ranked n false) (v.store e.span) = k := by
    rw [hpay]
    exact rankIn_getElem h.sealed_ascending hk
  obtain ⟨e', hsel⟩ := Option.isSome_iff_exists.mp (h.selectInRuns_isSome false hrun he hrank)
  obtain ⟨⟨run', hrun', he'⟩, hk'⟩ := h.selectInRuns_sound hsel
  obtain ⟨hvalid, hmem⟩ := h.run_entry hrun' he'
  have hget := getElem?_rankIn h.sealed_ascending hmem
  have hk'' : rankIn n.sealed (v.store e'.span) = k := hk'
  rw [hk''] at hget
  exact ⟨e', by rw [View.selectSealed, hsel], hvalid, hget⟩

/-! ### Codes -/

/-- **The entry behind a live code** holds the value of that code. -/
theorem entryOf_ok {c : ℕ} (hc : c < n.len) :
    ∃ e, v.entryOf c = .ok e ∧ e.Valid v.store ∧ n.values[c]? = some (v.store e.span) := by
  have hsealedLen := h.sealedLen_eq
  by_cases hlt : c < n.sealed.length
  · rw [values, getElem?_append_left hlt]
    unfold View.entryOf
    rw [if_pos (by omega)]
    split
    · -- At rest there is one run, and a sealed code is an index.
      next run hruns =>
      have hrun : run ∈ v.runs := by rw [hruns]; simp
      have hlawful := h.runs_lawful run hrun
      have hperm : (keys v.store run.entries).Perm n.sealed := by
        have hp := h.sealed_perm
        rw [hruns] at hp
        simpa [runKeys] using hp
      have hlen : c < run.entries.length := by
        have hl := hperm.length_eq
        rw [keys, length_map] at hl
        omega
      obtain ⟨hvalid, hmem⟩ := h.run_entry hrun (getD_mem run hlen)
      have hget := getElem?_rankIn h.sealed_ascending hmem
      rw [← rankIn_perm hperm, rankIn_keys hlawful hlen] at hget
      exact ⟨_, rfl, hvalid, hget⟩
    · exact h.selectSealed_ok hlt
  · have htail : c - n.sealed.length < v.arrivals.length := by
      have hl := h.len_eq
      rw [View.len] at hl
      omega
    refine ⟨v.arrivals[c - n.sealed.length], ?_, h.arrivals_valid _ (getElem_mem _), ?_⟩
    · rw [View.entryOf, if_neg (by omega), if_neg (by omega), hsealedLen, getD_eq_getElem _ _ htail]
    · rw [values, getElem?_append_right (by omega), ← h.tail_eq, keys,
        getElem?_map, getElem?_eq_getElem htail]
      rfl

omit h in
lemma length_values (n : Naive) : n.values.length = n.len := by
  rw [values, Naive.len, length_append]

lemma entryOf_error {c : ℕ} (hc : n.len ≤ c) :
    v.entryOf c = .error (.visibilityOverflow (c + 1) n.len) := by
  have hlen := h.len_eq
  have hlen' := hlen
  rw [View.len] at hlen'
  rw [View.entryOf, if_neg (by omega), if_pos (by omega), hlen]

/-- **Resolving** answers the value of the code. -/
theorem resolve_eq (c : ℕ) : v.resolve c = n.resolve c := by
  rcases lt_or_ge c n.len with hc | hc
  · obtain ⟨e, he, -, hget⟩ := h.entryOf_ok hc
    rw [View.resolve, he, Naive.resolve, hget]
    rfl
  · have hnone : n.values[c]? = none := by
      rw [getElem?_eq_none_iff, length_values]
      exact hc
    rw [View.resolve, h.entryOf_error hc, Naive.resolve, hnone]
    rfl

/-- **Comparing codes** is comparing values. -/
theorem cmp_eq (ca cb : ℕ) : v.cmp ca cb = n.cmp ca cb := by
  unfold View.cmp Naive.cmp
  rw [h.len_eq]
  by_cases ha : n.len ≤ ca
  · rw [if_pos ha, if_pos ha]
  by_cases hb : n.len ≤ cb
  · rw [if_neg ha, if_neg ha, if_pos hb, if_pos hb]
  rw [if_neg ha, if_neg ha, if_neg hb, if_neg hb]
  by_cases hab : ca = cb
  · rw [if_pos hab, hab, Std.ReflOrd.compare_self]
  rw [if_neg hab]
  by_cases hsealed : ca < v.sealedLen ∧ cb < v.sealedLen
  · -- Among sealed codes, rank order is byte order.
    obtain ⟨hsa, hsb⟩ := hsealed
    rw [h.sealedLen_eq] at hsa hsb
    rw [if_pos ⟨by rw [h.sealedLen_eq]; exact hsa, by rw [h.sealedLen_eq]; exact hsb⟩,
      values, getD_append _ _ _ _ hsa, getD_append _ _ _ _ hsb, getD_eq_getElem _ _ hsa,
      getD_eq_getElem _ _ hsb, compare_getElem h.sealed_ascending hsa hsb]
  · obtain ⟨ea, hea, hva, hga⟩ := h.entryOf_ok (Nat.lt_of_not_le ha)
    obtain ⟨eb, heb, hvb, hgb⟩ := h.entryOf_ok (Nat.lt_of_not_le hb)
    rw [if_neg hsealed, hea, heb, getD_eq_getElem?_getD, getD_eq_getElem?_getD, hga, hgb,
      Option.getD_some, Option.getD_some, ← hva.cmpEntry_eq hvb]
    rfl

/-! ### Ranks -/

lemma searchRuns_sealed {value : Bytes} (hn : value.length ≤ u32Max) :
    searchRuns v.runs (prefix4 value) value v.store =
      (rankIn n.sealed value, decide (value ∈ n.sealed)) := by
  rw [searchRuns_eq h.runs_lawful hn, rankIn_perm h.sealed_perm]
  simp [h.sealed_perm.mem_iff]

lemma searchDelta {value : Bytes} (hn : value.length ≤ u32Max) : (value ∈ n.tail → binarySearchBy
        (fun i => (v.arrivals.getD i default).cmpNeedle (prefix4 value) value v.store) v.sorted =
        .ok (rankIn n.tail value)) ∧
      (value ∉ n.tail → binarySearchBy
        (fun i => (v.arrivals.getD i default).cmpNeedle (prefix4 value) value v.store) v.sorted =
        .error (rankIn n.tail value)) := by
  have hsearch := binarySearchBy_keys
    (fun i hi => (h.valid_of_mem_sorted hi).cmpNeedle_eq hn) h.sorted_ascending
  have hperm : (v.sorted.map fun i => v.store (v.arrivals.getD i default).span).Perm n.tail :=
    h.deltaKeys_perm
  rw [hperm.mem_iff, rankIn_perm hperm] at hsearch
  exact hsearch

/-- **Ranking a value** counts the values below it and says whether it is one. -/
theorem rank_eq (value : Bytes) : v.rank value = n.rank value := by
  unfold View.rank Naive.rank
  by_cases hlen : u32Max < value.length
  · rw [if_pos hlen, if_pos hlen]
  have hn : value.length ≤ u32Max := by omega
  obtain ⟨hfound, hmissing⟩ := h.searchDelta hn
  have hsum : rankIn n.values value = rankIn n.sealed value + rankIn n.tail value :=
    rankIn_append _ _ _
  simp only [h.searchRuns_sealed hn, hsum]
  have hmem : value ∈ n.values ↔ value ∈ n.sealed ∨ value ∈ n.tail := mem_append
  by_cases htail : value ∈ n.tail
  · rw [hfound htail, if_pos (hmem.mpr (.inr htail))]
  · rw [hmissing htail]
    by_cases hsealed : value ∈ n.sealed
    · simp [hmem, hsealed]
    · simp [hmem, hsealed, htail]

lemma globalRankOfDeltaEntry_eq (hmid : mid < v.sorted.length) :
    (v.entryByDeltaRank mid).Valid v.store ∧
      v.globalRankOfDeltaEntry (v.entryByDeltaRank mid) mid =
        rankIn n.values (v.store (v.entryByDeltaRank mid).span) ∧
      (deltaKeys v)[mid]? = some (v.store (v.entryByDeltaRank mid).span) := by
  have hentry : v.entryByDeltaRank mid = v.arrivals.getD v.sorted[mid] default := by
    rw [View.entryByDeltaRank, getD_eq_getElem _ _ hmid]
  have hvalid := h.valid_of_mem_sorted (getElem_mem hmid)
  have hget : (deltaKeys v)[mid]? = some (v.store (v.entryByDeltaRank mid).span) := by
    rw [deltaKeys, getElem?_map, getElem?_eq_getElem hmid, hentry]
    rfl
  have hlen : mid < (deltaKeys v).length := by
    rw [deltaKeys, length_map]
    exact hmid
  have hpos : rankIn n.tail (v.store (v.entryByDeltaRank mid).span) = mid := by
    have hget' := hget
    rw [getElem?_eq_getElem hlen, Option.some_inj] at hget'
    rw [← rankIn_perm h.deltaKeys_perm, ← hget']
    exact rankIn_getElem h.sorted_ascending hlen
  rw [← hentry] at hvalid
  refine ⟨hvalid, ?_, hget⟩
  rw [View.globalRankOfDeltaEntry, h.sum_lowerBoundIn hvalid, values, rankIn_append, hpos,
    add_comm]

lemma selectGlobal_ok {k : ℕ} (hk : k < n.len) :
    ∃ e, v.selectGlobal k = .ok e ∧ v.store e.span ∈ n.values ∧
      rankIn n.values (v.store e.span) = k := by
  unfold View.selectGlobal
  cases hruns : v.selectInRuns k true with
  | some e =>
    obtain ⟨⟨run, hrun, he⟩, hrank⟩ := h.selectInRuns_sound hruns
    exact ⟨e, rfl, mem_append_left _ (h.run_entry hrun he).2, hrank⟩
  | none =>
    -- No run has the value of rank `k`, so it is a delta value.
    obtain ⟨x, hx, hrank⟩ := exists_rankIn_eq h.nodup (by rw [length_values]; exact hk)
    have htail : x ∈ n.tail := by
      rcases mem_append.mp hx with hsealed | htail
      · obtain ⟨run, hrun, e, he, rfl⟩ := h.exists_run_entry hsealed
        have hsome := h.selectInRuns_isSome true hrun he hrank
        rw [hruns] at hsome
        cases hsome
      · exact htail
    obtain ⟨i, hi, hix⟩ := getElem_of_mem (h.deltaKeys_perm.mem_iff.mpr htail)
    have hlen : (deltaKeys v).length = v.sorted.length := length_map ..
    have hxi : v.store (v.entryByDeltaRank i).span = x := by
      have hget := (h.globalRankOfDeltaEntry_eq (hlen ▸ hi)).2.2
      rw [getElem?_eq_getElem hi, Option.some_inj] at hget
      rw [← hget, hix]
    have hfound : bisect (fun mid =>
        compare (v.globalRankOfDeltaEntry (v.entryByDeltaRank mid) mid) k) v.sorted.length =
        .ok i := by
      refine bisect_compare ?_ (hlen ▸ hi) ?_
      · intro a b hab hb
        obtain ⟨-, hra, hga⟩ := h.globalRankOfDeltaEntry_eq (show a < _ by omega)
        obtain ⟨-, hrb, hgb⟩ := h.globalRankOfDeltaEntry_eq hb
        have hlt := pairwise_iff_getElem.mp h.sorted_ascending a b
          (by rw [length_map]; omega) (by rw [length_map]; omega) hab
        have hmem : v.store (v.entryByDeltaRank a).span ∈ n.values :=
          mem_append_right _ (h.deltaKeys_perm.mem_iff.mp (mem_of_getElem? hga))
        rw [hra, hrb]
        refine rankIn_lt hmem ?_
        have ha' := List.getElem_of_getElem? hga
        have hb' := List.getElem_of_getElem? hgb
        rw [← ha'.2, ← hb'.2]
        exact hlt
      · rw [(h.globalRankOfDeltaEntry_eq (hlen ▸ hi)).2.1, hxi, hrank]
    exact ⟨v.entryByDeltaRank i, by rw [hfound], by rw [hxi]; exact hx, by rw [hxi]; exact hrank⟩

/-- **Selecting a rank** answers the value at that place of the sorted union. -/
theorem select_eq (k : ℕ) : v.select k = n.select k := by
  have hperm : n.unionSorted.Perm n.values := sortAll_perm _
  have hlen : n.unionSorted.length = n.len := by rw [hperm.length_eq, length_values]
  unfold View.select
  rw [h.len_eq]
  rcases lt_or_ge k n.len with hk | hk
  · obtain ⟨e, hsel, hmem, hrank⟩ := h.selectGlobal_ok hk
    have hget := getElem?_rankIn (ascending_sortAll h.nodup) (hperm.mem_iff.mpr hmem)
    have hk' : rankIn (sortAll n.values) (v.store e.span) = k := by
      rw [rankIn_perm (sortAll_perm _), hrank]
    rw [hk'] at hget
    rw [if_neg (by omega), hsel, Naive.select, unionSorted, hget]
    rfl
  · have hnone : n.unionSorted[k]? = none := by
      rw [getElem?_eq_none_iff, hlen]
      exact hk
    rw [if_pos hk, Naive.select, hnone]

end View.Represents

end Kyzo

import Kyzo.Value.ArenaView

/-!
# The arena simulates the naive dictionary

The simulation relation between the arena and the naive dictionary, and its preservation by
`intern`, by `seal` and by `snapshot`.  Everything an observer answers then follows from
`ArenaView`, since the live frame and every snapshot are views that represent the dictionary of
their moment.
-/

namespace Kyzo

open List

/-- The entries a view can reach. -/
def View.entries (v : View) : List Entry := v.runs.flatMap Run.entries ++ v.arrivals

variable {v : View} {n : Naive}

lemma View.Represents.congr_store (h : v.Represents n) {store : Store}
    (hstore : ∀ e ∈ v.entries, store e.span = v.store e.span) :
    ({ v with store := store } : View).Represents n := by
  have hrun : ∀ r ∈ v.runs, ∀ e ∈ r.entries, store e.span = v.store e.span := by
    intro r hr e he
    exact hstore e (mem_append_left _ (mem_flatMap.mpr ⟨r, hr, he⟩))
  have harr : ∀ e ∈ v.arrivals, store e.span = v.store e.span := by
    intro e he
    exact hstore e (mem_append_right _ he)
  have hvalid : ∀ e : Entry, store e.span = v.store e.span → e.Valid v.store → e.Valid store := by
    intro e heq he
    exact ⟨heq ▸ he.pre_eq, heq ▸ he.len_eq, he.len_le⟩
  have hkeys : ∀ r ∈ v.runs, keys store r.entries = keys v.store r.entries := by
    intro r hr
    exact map_congr_left fun e he => hrun r hr e he
  have hrunKeys : runKeys store v.runs = runKeys v.store v.runs := flatMap_congr hkeys
  refine ⟨?_, ?_, ?_, h.sealed_ascending, h.sealedLen_eq, ?_, h.nodup, h.sorted_perm, ?_⟩
  · intro r hr
    have hl := h.runs_lawful r hr
    refine ⟨fun e he => hvalid e (hrun r hr e he) (hl.valid e he), ?_⟩
    simp only [hkeys r hr]
    exact hl.ascending
  · intro e he
    exact hvalid e (harr e he) (h.arrivals_valid e he)
  · simp only [hrunKeys]
    exact h.sealed_perm
  · rw [← h.tail_eq]
    exact map_congr_left harr
  · have hsorted : (v.sorted.map fun i => store (v.arrivals.getD i default).span) =
        v.sorted.map fun i => v.store (v.arrivals.getD i default).span := by
      refine map_congr_left ?_
      intro i hi
      exact harr _ (h.arrival_mem hi)
    simp only [hsorted]
    exact h.sorted_ascending

lemma View.Represents.push (h : v.Represents n) {e : Entry} (he : e.Valid v.store)
    (hnew : v.store e.span ∉ n.values) : ({ v with
      arrivals := v.arrivals ++ [e]
      sorted := v.sorted.insertIdx (rankIn n.tail (v.store e.span)) v.arrivals.length } :
        View).Represents { n with tail := n.tail ++ [v.store e.span] } := by
  have hlenSorted : v.sorted.length = n.tail.length := by
    rw [← h.deltaKeys_perm.length_eq, View.Represents.deltaKeys, length_map]
  have hrank : rankIn n.tail (v.store e.span) ≤ v.sorted.length := by
    rw [hlenSorted]
    exact rankIn_le_length _ _
  refine ⟨h.runs_lawful, ?_, h.sealed_perm, h.sealed_ascending, h.sealedLen_eq, ?_, ?_, ?_, ?_⟩
  · exact forall_mem_append.mpr ⟨h.arrivals_valid, forall_mem_singleton.mpr he⟩
  · rw [← h.tail_eq]
    simp [keys]
  · have hassoc : Naive.values { n with tail := n.tail ++ [v.store e.span] } =
        n.values ++ [v.store e.span] := (append_assoc _ _ _).symm
    rw [hassoc, nodup_append]
    refine ⟨h.nodup, nodup_singleton _, ?_⟩
    rintro x hx y hy rfl
    rw [mem_singleton.mp hy] at hx
    exact hnew hx
  · refine (perm_insertIdx _ _ hrank).trans ?_
    rw [length_append, length_singleton, range_succ]
    exact (h.sorted_perm.cons _).trans (perm_append_singleton _ _).symm
  · -- Old indices read the same arrivals; the new one reads the new entry.
    have hold : (v.sorted.map fun i => v.store ((v.arrivals ++ [e]).getD i default).span) =
        View.Represents.deltaKeys v := by
      refine map_congr_left ?_
      intro i hi
      rw [getD_append _ _ _ _ (h.lt_of_mem_sorted hi)]
    have hnewKey : v.store ((v.arrivals ++ [e]).getD v.arrivals.length default).span =
        v.store e.span := by
      rw [getD_eq_getElem?_getD, List.getElem?_concat_length]
      rfl
    have hmem : v.store e.span ∉ View.Represents.deltaKeys v := by
      rw [h.deltaKeys_perm.mem_iff]
      exact fun ht => hnew (mem_append_right _ ht)
    rw [map_insertIdx, hold, hnewKey, ← rankIn_perm h.deltaKeys_perm]
    exact ascending_insertIdx h.sorted_ascending hmem

/-- The simulation relation. -/
structure Arena.Simulates (a : Arena) (n : Naive) : Prop where
  /-- The live frame lays out the dictionary. -/
  represents : a.frame.view.Represents n
  holds : ∀ e ∈ a.frame.view.entries, a.heap.Holds e.span
  epoch_eq : a.epoch = n.epoch
  /-- The number of values fits the code space. -/
  len_le : n.len ≤ u32Max

namespace Arena

lemma simulates_new (id : ℕ) : (new id).Simulates Naive.new where
  represents := by
    refine ⟨?_, ?_, ?_, ?_, rfl, rfl, ?_, ?_, ?_⟩ <;>
      simp [new, frame, Naive.new, Naive.values, Delta.new, runKeys, Ascending]
  holds := by simp [new, frame, View.entries, Delta.new]
  epoch_eq := rfl
  len_le := by decide

variable {a : Arena} {heap : Heap}

variable (h : a.Simulates n)
include h

lemma Simulates.of_extends (hext : a.heap.Extends heap) :
    ({ a with heap := heap } : Arena).Simulates n where
  represents := h.represents.congr_store fun e he => (hext _ (h.holds e he)).2
  holds := fun e he => (hext _ (h.holds e he)).1
  epoch_eq := h.epoch_eq
  len_le := h.len_le

lemma Simulates.snapshot : a.snapshot.2.Simulates n ∧ a.snapshot.1.view.Represents n :=
  ⟨h.of_extends a.heap.freezeLive_extends,
    h.represents.congr_store fun e he => Heap.frozenPayload_freezeLive (h.holds e he)⟩

lemma Simulates.asU32_eq {c : ℕ} (hc : c ≤ n.len) : asU32 c = c :=
  Nat.mod_eq_of_lt (lt_of_le_of_lt (hc.trans h.len_le) (by decide))

/-! ## Interning -/

omit h in
lemma idxOf_eq_rankIn {l : List Bytes} (h : Ascending compare l) {x : Bytes}
    (hx : x ∈ l) : l.idxOf x = rankIn l x := by
  obtain ⟨i, hi, rfl⟩ := getElem_of_mem hx
  rw [rankIn_getElem h hi, h.nodup.idxOf_getElem i hi]

lemma sorted_getD_rank {value : Bytes} (hv : value ∈ n.tail) :
    a.delta.sorted.getD (rankIn n.tail value) 0 = n.tail.idxOf value := by
  have hrep := h.represents
  have hperm := hrep.deltaKeys_perm
  have hget := getElem?_rankIn hrep.sorted_ascending (hperm.mem_iff.mpr hv)
  have hrank : rankIn (a.frame.view.sorted.map fun i =>
      a.frame.view.store (a.frame.view.arrivals.getD i default).span) value =
      rankIn n.tail value := rankIn_perm hperm value
  rw [hrank, List.getElem?_map, Option.map_eq_some_iff] at hget
  obtain ⟨i, hi, hpay⟩ := hget
  have hlt := hrep.lt_of_mem_sorted (mem_of_getElem? hi)
  have htail : n.tail[i]? = some value := by
    rw [← hrep.tail_eq, keys, List.getElem?_map, List.getElem?_eq_getElem hlt]
    rw [getD_eq_getElem _ _ hlt] at hpay
    exact congrArg some hpay
  obtain ⟨hlen, heq⟩ := List.getElem_of_getElem? htail
  have hnodup : n.tail.Nodup := (nodup_append.mp hrep.nodup).2.1
  have hsorted : a.delta.sorted[rankIn n.tail value]? = some i := hi
  rw [getD_eq_getElem?_getD, hsorted, ← heq, hnodup.idxOf_getElem i hlen]
  rfl

lemma Simulates.push {value : Bytes} (hnew : value ∉ n.values)
    (hlen : n.len < u32Max) {span : Span} (hpush : a.heap.push value = (.ok span, heap)) : ({ a with
      heap := heap
      delta := ⟨a.delta.arrivals ++ [Entry.new span heap],
        a.delta.sorted.insertIdx (rankIn n.tail value) a.delta.arrivals.length⟩ } :
        Arena).Simulates { n with tail := n.tail ++ [value] } := by
  obtain ⟨hholds, hpay, hle⟩ := Heap.push_ok hpush
  have hext : a.heap.Extends heap := by
    have h' := a.heap.push_extends value
    rwa [hpush] at h'
  have hold := h.of_extends hext
  have hvalid : (Entry.new span heap).Valid heap.payload := by
    refine ⟨rfl, hholds.length_payload, ?_⟩
    have hspan := hholds.length_payload
    rw [hpay] at hspan
    show span.len ≤ u32Max
    omega
  have hkey : heap.payload (Entry.new span heap).span = value := hpay
  refine ⟨?_, ?_, h.epoch_eq, ?_⟩
  · have hrep := hold.represents.push hvalid (by
      show heap.payload (Entry.new span heap).span ∉ n.values
      rw [hkey]
      exact hnew)
    simp only [frame, hkey] at hrep ⊢
    exact hrep
  · obtain ⟨hruns, harr⟩ := forall_mem_append.mp hold.holds
    exact forall_mem_append.mpr
      ⟨hruns, forall_mem_append.mpr ⟨harr, forall_mem_singleton.mpr hholds⟩⟩
  · have hgrow : Naive.len { n with tail := n.tail ++ [value] } = n.len + 1 := by
      simp [Naive.len, Nat.add_assoc]
    omega

/-- The 32-bit capacities an interning can run out of: codes, value lengths and chunk ids. -/
def AtCapacity (a : Arena) (value : Bytes) : Prop :=
  u32Max ≤ a.len ∨ u32Max < value.length ∨ u32Max ≤ a.heap.frozen.length

/-- **Interning refines the naive dictionary**: it refuses for capacity and changes nothing, or
answers the naive code and simulates the naive dictionary after the same interning. -/
theorem Simulates.intern (value : Bytes) : ∃ a', a'.id = a.id ∧
      (a.AtCapacity value ∧ a.intern value = (.error .extentOverflow, a') ∧ a'.Simulates n ∨
        a.intern value = (.ok (a.stamp (n.intern value).1), a') ∧
          a'.Simulates (n.intern value).2) := by
  have hrep := h.represents
  have hlen : a.len = n.len := hrep.len_eq
  have hsealedLen : a.sealedLen = n.sealed.length := hrep.sealedLen_eq
  have harrivals : a.delta.arrivals.length = n.tail.length := by
    rw [← hrep.tail_eq, keys, length_map]
    rfl
  unfold Arena.intern
  by_cases hfull : u32Max ≤ a.len
  · exact ⟨a, rfl, .inl ⟨.inl hfull, by rw [if_pos hfull], h⟩⟩
  by_cases hbig : u32Max < value.length
  · exact ⟨a, rfl, .inl ⟨.inr (.inl hbig), by rw [if_neg hfull, if_pos hbig], h⟩⟩
  have hn : value.length ≤ u32Max := by omega
  have hruns : searchRuns a.runs (prefix4 value) value a.heap.payload =
      (rankIn n.sealed value, decide (value ∈ n.sealed)) := hrep.searchRuns_sealed hn
  obtain ⟨hfound, hmissing⟩ := hrep.searchDelta hn
  rw [if_neg hfull, if_neg hbig]
  simp only [hruns, decide_eq_true_eq]
  by_cases hsealed : value ∈ n.sealed
  · -- A sealed hit answers the rank.
    have hcode : n.intern value = (rankIn n.sealed value, n) := by
      rw [Naive.intern, if_pos hsealed, idxOf_eq_rankIn hrep.sealed_ascending hsealed]
    have hrank : rankIn n.sealed value ≤ n.len :=
      (rankIn_le_length _ _).trans (Nat.le_add_right _ _)
    refine ⟨a, rfl, .inr ⟨?_, ?_⟩⟩
    · rw [if_pos hsealed, hcode, h.asU32_eq hrank]
    · rw [hcode]
      exact h
  rw [if_neg hsealed]
  by_cases htail : value ∈ n.tail
  · -- A delta hit answers the arrival.
    have hcode : n.intern value = (n.sealed.length + n.tail.idxOf value, n) := by
      rw [Naive.intern, if_neg hsealed, if_pos htail]
    have hidx : n.sealed.length + n.tail.idxOf value ≤ n.len := by
      have hlt := idxOf_lt_length_of_mem htail
      rw [Naive.len]
      omega
    have hsearch : a.delta.search (prefix4 value) value a.heap.payload =
        .ok (rankIn n.tail value) := hfound htail
    refine ⟨a, rfl, .inr ⟨?_, ?_⟩⟩
    · rw [hsearch]
      simp only [sorted_getD_rank h htail, hsealedLen]
      rw [hcode, h.asU32_eq hidx]
    · rw [hcode]
      exact h
  · -- A novel value joins the delta if the heap takes it.
    have hcode : n.intern value =
        (n.sealed.length + n.tail.length, { n with tail := n.tail ++ [value] }) := by
      rw [Naive.intern, if_neg hsealed, if_neg htail]
    have hnew : value ∉ n.values := by
      rw [Naive.values, mem_append]
      tauto
    have hsearch : a.delta.search (prefix4 value) value a.heap.payload =
        .error (rankIn n.tail value) := hmissing htail
    rw [hsearch, hcode]
    rcases hpush : a.heap.push value with ⟨r, heap⟩
    rcases r with e | span
    · have hext : a.heap.Extends heap := by
        have h' := a.heap.push_extends value
        rwa [hpush] at h'
      obtain ⟨rfl, hcap⟩ := Heap.push_error hpush
      exact ⟨{ a with heap := heap }, rfl, .inl ⟨.inr hcap, rfl, h.of_extends hext⟩⟩
    · have hstamp : asU32 (a.sealedLen + a.delta.arrivals.length) =
          n.sealed.length + n.tail.length := by
        rw [hsealedLen, harrivals]
        exact h.asU32_eq le_rfl
      refine ⟨_, ?_, .inr ⟨?_, h.push hnew (by omega) hpush⟩⟩
      · rfl
      · rw [hstamp]

end Arena

end Kyzo

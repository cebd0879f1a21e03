import Mathlib
import Kyzo.Exec.NormalRuns

/-!
# The relations of a store

The rows a store holds and the rows of its delta, as sets.  A merge adds the rows of the out-store
to the total and makes the new ones among them the delta; it succeeds while the rows fit the arena.
-/

namespace Kyzo

open List hiding Disjoint isEmpty
open NormalLevel

variable (s : EpochStore)

/-- The rows a store holds. -/
def EpochStore.total : Set Tuple :=
  {t | ∃ rows, s.allIter = .ok rows ∧ ∃ r ∈ rows, r.full = t.bare}

/-- The rows of a store's delta. -/
def EpochStore.delta : Set Tuple :=
  {t | ∃ rows, s.deltaAllIter = .ok rows ∧ ∃ r ∈ rows, r.full = t.bare}

/-- The rows of an out-store. -/
def RegularTempStore.rows (o : RegularTempStore) : Set Tuple := {t | o.existsKey t = true}

/-- A normal store into which the out-stores were merged. -/
def EpochStore.HasMerged (outs : List RegularTempStore) : Prop :=
  ∃ levels, s.kind = .normal levels ∧ Merged levels outs

variable {outs : List RegularTempStore}

namespace EpochStore.HasMerged

variable {s}

lemma newNormal (arity : ℕ) : (EpochStore.newNormal arity).HasMerged [] :=
  ⟨_, rfl, merged_singleton⟩

variable {t : Tuple}

lemma isSome_latestSkip : (latestSkip outs t).isSome = true ↔ ∃ o ∈ outs, t ∈ o.rows := by
  rw [latestSkip, findSome?_isSome_iff]
  simp only [mem_reverse, RegularTempStore.rows, RegularTempStore.existsKey,
    Set.mem_ofPred_eq, Std.TreeMap.contains_eq_isSome_getElem?]

lemma exists_of_newInLast (h : newInLast outs t = true) : ∃ o ∈ outs, t ∈ o.rows := by
  have hlast := (Bool.and_eq_true_iff.mp h).1
  rcases ho : outs.getLast? with _ | o
  · simp [ho] at hlast
  · rw [ho] at hlast
    exact ⟨o, mem_of_getLast? ho, hlast⟩

section

variable (h : s.HasMerged outs)

include h

lemma scan : ∃ rows : List (Tuple × LimiterSkip),
    (∀ t, (∃ skip, (t, skip) ∈ rows) ↔ ∃ o ∈ outs, t ∈ o.rows) ∧
    s.allIter = .ok (rows.map tupleView) ∧
    s.deltaAllIter = .ok ((rows.filter fun e => newInLast outs e.1).map tupleView) ∧
    (s.hasDelta = true ↔ ∃ e ∈ rows, newInLast outs e.1 = true) ∧
    ∀ t, s.existsKey t = true ↔ ∃ skip, (t, skip) ∈ rows := by
  obtain ⟨levels, hkind, h⟩ := h
  obtain ⟨rows, hrows⟩ := h.exists_rows
  have hscan : ∀ deltaOnly, s.ranged [] ([] ++ [0xFF]) true deltaOnly =
      .ok ((if deltaOnly then rows.filter fun e => newInLast outs e.1 else rows).map
        tupleView) := by
    intro deltaOnly
    rw [Merged.ranged hkind h, h.map_rowView_scanned hrows]
    have hall : ∀ e : Tuple × LimiterSkip, withinBounds [] ([] ++ [0xFF]) true e.1.bare = true := by
      intro e
      refine (withinBounds_isPrefix [] e.1).trans ?_
      simp
    rw [filter_eq_self.mpr fun e _ => hall e]
  refine ⟨rows, fun t => ?_, hscan false, hscan true, h.hasDelta_iff hrows hkind,
    h.existsKey_iff hrows hkind⟩
  rw [← isSome_latestSkip, Option.isSome_iff_exists]
  simp [h.mem_rows hrows]

lemma mem_total : t ∈ s.total ↔ ∃ o ∈ outs, t ∈ o.rows := by
  obtain ⟨rows, hmem, hall, -⟩ := h.scan
  rw [← hmem]
  constructor
  · rintro ⟨rows', hrows', r, hr, hfull⟩
    cases hall.symm.trans hrows'
    obtain ⟨e, he, rfl⟩ := mem_map.mp hr
    exact ⟨e.2, Tuple.bare_injective hfull ▸ he⟩
  · rintro ⟨skip, hskip⟩
    exact ⟨_, hall, _, mem_map.mpr ⟨_, hskip, rfl⟩, rfl⟩

lemma mem_delta : t ∈ s.delta ↔ newInLast outs t = true := by
  obtain ⟨rows, hmem, -, hdelta, -⟩ := h.scan
  constructor
  · rintro ⟨rows', hrows', r, hr, hfull⟩
    cases hdelta.symm.trans hrows'
    obtain ⟨e, he, rfl⟩ := mem_map.mp hr
    exact Tuple.bare_injective hfull ▸ (mem_filter.mp he).2
  · intro hnew
    obtain ⟨skip, hskip⟩ := (hmem t).mpr (exists_of_newInLast hnew)
    exact ⟨_, hdelta, _, mem_map.mpr ⟨_, mem_filter.mpr ⟨hskip, hnew⟩, rfl⟩, rfl⟩

lemma existsKey_iff : s.existsKey t = true ↔ t ∈ s.total := by
  obtain ⟨rows, hmem, -, -, -, hexists⟩ := h.scan
  rw [hexists, hmem, h.mem_total]

lemma hasDelta_iff : s.hasDelta = true ↔ s.delta.Nonempty := by
  obtain ⟨rows, hmem, -, -, hdelta, -⟩ := h.scan
  rw [hdelta]
  constructor
  · rintro ⟨e, -, hnew⟩
    exact ⟨e.1, h.mem_delta.mpr hnew⟩
  · rintro ⟨t, ht⟩
    have hnew := h.mem_delta.mp ht
    obtain ⟨skip, hskip⟩ := (hmem t).mpr (exists_of_newInLast hnew)
    exact ⟨_, hskip, hnew⟩

end

lemma mem_delta_concat (h : s.HasMerged (outs ++ [new])) {s₀ : EpochStore}
    (h₀ : s₀.HasMerged outs) : t ∈ s.delta ↔ t ∈ new.rows ∧ t ∉ s₀.total := by
  rw [h.mem_delta, newInLast, h₀.mem_total]
  simp [RegularTempStore.rows]

end EpochStore.HasMerged

/-! ## Merges that fit -/

/-- The bytes of an out-store's rows. -/
def RegularTempStore.bytes (o : RegularTempStore) : ℕ := (o.entries.map fun e => e.1.length).sum

/-- The bytes in a list of levels. -/
def levelBytes (levels : List NormalLevel) : ℕ :=
  (levels.map fun l => bytesOf l.rows).sum

lemma levelBytes_append (levels levels' : List NormalLevel) :
    levelBytes (levels ++ levels') = levelBytes levels + levelBytes levels' := by
  rw [levelBytes, map_append, sum_append, levelBytes, levelBytes]

lemma levelBytes_singleton (l : NormalLevel) : levelBytes [l] = bytesOf l.rows := by
  simp [levelBytes]

lemma NormalLevel.bytesOf_mergeNewest_le (older newer : List (Bytes × RowFlags)) :
    bytesOf (mergeNewest settle older newer) ≤ bytesOf older + bytesOf newer := by
  have hcons : ∀ (e : Bytes × RowFlags) rows, bytesOf (e :: rows) = e.1.length + bytesOf rows := by
    intro e rows
    rw [bytesOf, map_cons, sum_cons, bytesOf]
  induction older, newer using mergeNewest.induct with
  | case1 newer => simp [mergeNewest, bytesOf]
  | case2 older => simp [bytesOf]
  | case3 ka va older kb vb newer hlt ih =>
    rw [mergeNewest, hlt, hcons, hcons (ka, va) older]
    omega
  | case4 ka va older kb vb newer hgt ih =>
    rw [mergeNewest, hgt, hcons, hcons (kb, vb) newer]
    omega
  | case5 ka va older kb vb newer heq ih =>
    rw [mergeNewest, heq, hcons, hcons, hcons]
    simp only
    omega

lemma bytesOf_sealedRows_le (total : Bytes → Option LimiterSkip)
    (entries : List (Bytes × LimiterSkip)) :
    bytesOf (sealedRows total entries) ≤ (entries.map fun e => e.1.length).sum := by
  induction entries with
  | nil => rfl
  | cons e entries ih =>
    rw [sealedRows_cons]
    rcases sealedFlags e.2 (total e.1) with _ | flags
    · exact ih.trans (Nat.le_add_left _ _)
    · simp only [bytesOf, map_cons, sum_cons] at ih ⊢
      omega

variable {levels : LevelStack NormalLevel}

lemma compactNormal_ok {bound : ℕ} (hbound : bound ≤ arenaMax)
    (h : levelBytes levels.iter ≤ bound) :
    (compactNormal levels).1 = .ok () ∧ levelBytes (compactNormal levels).2.iter ≤ bound := by
  have hmerge : ∀ below older newer, levelBytes (below ++ [older, newer]) ≤ bound →
      ∃ merged, compactRows older newer (older.len + newer.len) 0 0 .empty = .ok merged ∧
        levelBytes (below ++ [merged]) ≤ bound := by
    intro below older newer hle
    have hsum : levelBytes (below ++ [older, newer]) =
        levelBytes below + (bytesOf older.rows + bytesOf newer.rows) := by
      simp [levelBytes]
    have hmerged := bytesOf_mergeNewest_le older.rows newer.rows
    rcases compactRows_spec older newer (older.len + newer.len) 0 0 le_rfl
      tight_empty with ⟨out, hout, hrows, -⟩ | ⟨e, -, hover⟩
    · refine ⟨out, hout, ?_⟩
      have hout : bytesOf out.rows ≤
          bytesOf older.rows + bytesOf newer.rows := by
        rw [hrows]
        exact hmerged
      rw [levelBytes_append, levelBytes_singleton]
      omega
    · have hover' : arenaMax < bytesOf
          (mergeNewest settle older.rows newer.rows) := hover
      omega
  refine ⟨LevelStack.compactWhile_ok (P := fun levels => levelBytes levels ≤ bound) hmerge h, ?_⟩
  refine LevelStack.compactWhile_invariant (P := fun levels => levelBytes levels ≤ bound) ?_ h
  intro below older newer merged hmerged hle
  obtain ⟨merged', hmerged', hle'⟩ := hmerge below older newer hle
  cases hmerged.symm.trans hmerged'
  exact hle'

variable {new : RegularTempStore}

/-- **A merge that fits succeeds.** -/
theorem mergeNormal_ok {outs : List RegularTempStore} (h : Merged levels outs)
    (hfit : levelBytes levels.iter + new.bytes ≤ arenaMax) :
    ∃ n levels', mergeNormal levels new = (.ok n, levels') ∧
      levelBytes levels'.iter ≤ levelBytes levels.iter + new.bytes := by
  have happ := sealRows_appends h.flags new.inner.toList tight_empty 0
  have hsealed : bytesOf (sealedRows (flagsOf outs) new.entries) ≤ new.bytes :=
    bytesOf_sealedRows_le _ _
  rcases hseal : sealRows levels.iter new.inner.toList .empty 0 with e | ⟨level, n⟩
  · rw [hseal] at happ
    rcases happ with ⟨out, hout, -⟩ | ⟨e', -, hover⟩
    · cases hout
    · have hover' : arenaMax < bytesOf (sealedRows (flagsOf outs) new.entries) := hover
      omega
  · rw [hseal] at happ
    rcases happ with ⟨out, hout, hrows, -⟩ | ⟨e', he', -⟩
    · cases hout
      have hdrop : levelBytes (levels.dropConsumedEmptyDelta isEmpty).iter ≤
          levelBytes levels.iter := by
        rcases levels.iter_dropConsumedEmptyDelta isEmpty with heq | ⟨top, -, heq⟩
        · rw [heq]
        · rw [heq, levelBytes_append]
          exact Nat.le_add_right _ _
      obtain ⟨hok, hle⟩ := compactNormal_ok (by omega) hdrop
      rcases hres : compactNormal (levels.dropConsumedEmptyDelta isEmpty) with ⟨r, lower⟩
      rw [hres] at hok hle
      simp only at hok hle
      refine ⟨n, lower.push level, ?_, ?_⟩
      · simp [mergeNormal, hseal, hres, hok]
      · have hlevel : bytesOf level.rows ≤ new.bytes := by
          have hrows' : level.rows = sealedRows (flagsOf outs) new.entries := hrows
          rw [hrows']
          exact hsealed
        rw [LevelStack.iter_push, levelBytes_append, levelBytes_singleton]
        omega
    · cases he'

/-! ## Counting rows -/

namespace RegularTempStore

lemma exists_tuples (o : RegularTempStore) :
    ∃ ts : List Tuple, ts.Nodup ∧ o.entries.map Prod.fst = ts.map Tuple.bare ∧
      ∀ t, t ∈ ts ↔ t ∈ o.rows := by
  have hrow : ∀ t : Tuple, t.bare ∈ o.entries.map Prod.fst ↔ t ∈ o.rows := by
    intro t
    have hlookup := o.lookupKey_entries t
    rw [rows, Set.mem_ofPred_eq, existsKey, Std.TreeMap.contains_eq_isSome_getElem?, ← hlookup,
      Option.isSome_iff_exists, mem_map]
    constructor
    · rintro ⟨⟨k, skip⟩, he, rfl⟩
      exact ⟨skip, (lookupKey_eq_some o.keysAscend_entries).mpr he⟩
    · rintro ⟨skip, hskip⟩
      exact ⟨_, (lookupKey_eq_some o.keysAscend_entries).mp hskip, rfl⟩
  have hbare : ∀ k ∈ o.entries.map Prod.fst, ∃ t : Tuple, t.bare = k := by
    intro k hk
    obtain ⟨e, he, rfl⟩ := mem_map.mp hk
    exact exists_bare_of_mem_entries he
  have hnodup := nodup_keys o.keysAscend_entries
  generalize o.entries.map Prod.fst = ks at hrow hbare hnodup
  obtain ⟨ts, rfl⟩ : ks ∈ Set.range (map Tuple.bare) := by
    rw [Set.range_list_map]
    exact hbare
  refine ⟨ts, hnodup.of_map _, rfl, fun t => ?_⟩
  rw [← hrow, mem_map_of_injective fun _ _ => Tuple.bare_injective]

lemma len_eq (o : RegularTempStore) : o.len = o.entries.length := by
  rw [len, entries, length_map, Std.TreeMap.length_toList]

lemma exists_tuples_all {outs : List RegularTempStore}
    (hdisj : outs.Pairwise fun o o' => Disjoint o.rows o'.rows) :
    ∃ ts : List Tuple, ts.Nodup ∧ (∀ t, t ∈ ts ↔ ∃ o ∈ outs, t ∈ o.rows) ∧
      (outs.map len).sum = ts.length ∧
      (outs.map bytes).sum = (ts.map fun t => t.bare.length).sum := by
  induction outs with
  | nil => exact ⟨[], nodup_nil, by simp, rfl, rfl⟩
  | cons o outs ih =>
    obtain ⟨hhead, htail⟩ := pairwise_cons.mp hdisj
    obtain ⟨ts, hnodup, hmem, hlen, hbytes⟩ := ih htail
    obtain ⟨us, hus, hkeys, husmem⟩ := o.exists_tuples
    refine ⟨us ++ ts, hus.append hnodup ?_, ?_, ?_, ?_⟩
    · intro t ht ht'
      obtain ⟨o', ho', hto'⟩ := (hmem t).mp ht'
      exact Set.disjoint_left.mp (hhead o' ho') ((husmem t).mp ht) hto'
    · intro t
      rw [mem_append, husmem, hmem, exists_mem_cons_iff]
    · have hcount := congrArg length hkeys
      rw [length_map, length_map] at hcount
      rw [map_cons, sum_cons, hlen, o.len_eq, hcount, length_append]
    · have hsum := congrArg (fun ks : List Bytes => (ks.map length).sum) hkeys
      simp only [map_map] at hsum
      rw [map_cons, sum_cons, hbytes, map_append, sum_append]
      exact congrArg (· + _) hsum

end RegularTempStore

/-- The bytes a normal store holds. -/
def EpochStore.held : ℕ :=
  match s.kind with
  | .normal levels => levelBytes levels.iter
  | .meet .. => 0

namespace EpochStore.HasMerged

variable {s}

lemma mergeIn (h : s.HasMerged outs) {n : ℕ} {s' : EpochStore}
    (hrun : s.mergeIn (.normal new) = (.ok n, s')) :
    s'.HasMerged (outs ++ [new]) ∧
      n = (new.entries.filter fun e => (flagsOf outs e.1).isNone).length := by
  obtain ⟨levels, hkind, h⟩ := h
  obtain ⟨levels', hmerge, hkind'⟩ := EpochStore.mergeIn_normal hkind hrun
  obtain ⟨hmerged, hn⟩ := h.mergeNormal hmerge
  exact ⟨⟨levels', hkind', hmerged⟩, hn⟩

lemma mergeIn_ok (h : s.HasMerged outs) (hfit : s.held + new.bytes ≤ arenaMax) :
    ∃ n s', s.mergeIn (.normal new) = (.ok n, s') ∧ s'.held ≤ s.held + new.bytes := by
  obtain ⟨levels, hkind, h⟩ := h
  have hheld : s.held = levelBytes levels.iter := by rw [held, hkind]
  rw [hheld] at hfit ⊢
  obtain ⟨n, levels', hmerge, hle⟩ := mergeNormal_ok h hfit
  refine ⟨n, { s with kind := .normal levels' }, ?_, hle⟩
  rw [EpochStore.mergeIn.eq_def]
  simp only [hkind, hmerge]
  rfl

end EpochStore.HasMerged

end Kyzo

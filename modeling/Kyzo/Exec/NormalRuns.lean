import Kyzo.Exec.NormalScan

/-!
# Runs of a normal store

What a sequence of barrier merges leaves in a normal store, said in rows: for each row the flag of
the last out-store that contained it, and as the delta the rows of the last out-store that no
earlier one contained.
-/

namespace Kyzo

open List RegularTempStore NormalLevel LevelStack RowFlags Bool

/-- A sequence of barrier merges: the store it leaves and what each call admitted, or the first
refusal. -/
def EpochStore.mergeAll : EpochStore → List TempStore → Except MergeRefuse (EpochStore × List ℕ)
  | s, [] => .ok (s, [])
  | s, new :: news =>
    match s.mergeIn new with
    | (.error e, _) => .error e
    | (.ok n, s) => (s.mergeAll news).map fun r => (r.1, n :: r.2)

variable (outs : List RegularTempStore)

/-- The flag of a row in the last out-store that contains it. -/
def latestSkip (t : Tuple) : Option LimiterSkip :=
  outs.reverse.findSome? fun o => o.inner[OwnBareKey.encode t]?

/-- The row is in the last out-store and in no earlier one. -/
def newInLast (t : Tuple) : Bool :=
  outs.getLast?.any (·.existsKey t) && outs.dropLast.all fun o => !o.existsKey t

/-- The view a scan yields for a row. -/
def tupleView (e : Tuple × LimiterSkip) : TupleInIter := .bytes e.1.bare e.2

/-! ## One merge -/

/-- The flags a sequence of out-stores leaves, over bytes. -/
def flagsOf (k : Bytes) : Option LimiterSkip :=
  newest (outs.map entries) k

lemma flagsOf_concat (new : RegularTempStore) (k : Bytes) :
    flagsOf (outs ++ [new]) k = (lookupKey new.entries k).or (flagsOf outs k) := by
  rw [flagsOf, map_append, newest_append, map_singleton, newest_singleton, flagsOf]

/-- What the levels are after the out-stores `outs` were merged in. -/
structure Merged (levels : LevelStack NormalLevel) (outs : List RegularTempStore) : Prop where
  flags : HoldsFlags levels.iter (flagsOf outs)
  delta : levels.last.rows =
    sealedRows (flagsOf outs.dropLast) (outs.getLast?.elim [] entries)

lemma merged_singleton : Merged (.singleton .empty) [] where
  flags :=
    { holds :=
        { ascend := by simp [LevelStack.singleton, LevelStack.iter, KeysAscend]
          newest_eq := fun k => rfl }
      tight := by simp [LevelStack.singleton, LevelStack.iter, tight_empty] }
  delta := rfl

variable {levels : LevelStack NormalLevel} {outs} {new : RegularTempStore} {n : ℕ}

/-- **One merge** seals the out-store over the flags held so far. -/
theorem Merged.mergeNormal {levels' : LevelStack NormalLevel} (h : Merged levels outs)
    (hrun : mergeNormal levels new = (.ok n, levels')) : Merged levels' (outs ++ [new]) ∧
      n = (new.entries.filter fun e => (flagsOf outs e.1).isNone).length := by
  have happ := sealRows_appends h.flags new.inner.toList tight_empty 0
  have hcompact := h.flags.dropConsumedEmptyDelta.compactNormal
  rw [Kyzo.mergeNormal] at hrun
  rcases hseal : sealRows levels.iter new.inner.toList .empty 0 with e | ⟨level, admitted⟩
  · simp only [hseal] at hrun
    cases hrun
  rcases hres : compactNormal (levels.dropConsumedEmptyDelta isEmpty) with ⟨e | u, lower⟩
  · simp only [hseal, hres] at hrun
    cases hrun
  simp only [hseal, hres] at hrun
  obtain ⟨hn, rfl⟩ := Prod.mk.inj hrun
  cases hn
  rw [hres] at hcompact
  rw [hseal] at happ
  obtain ⟨out, hout, hrows, htight⟩ | ⟨e, he, -⟩ := happ
  · cases hout
    have hrows' : level.rows = sealedRows (flagsOf outs) new.entries := hrows
    have hentries := new.keysAscend_entries
    refine ⟨⟨?_, ?_⟩, ?_⟩
    · have hconcat := hcompact.concat (hrows' ▸ keysAscend_sealedRows _ hentries) htight
      refine ⟨⟨hconcat.holds.ascend, fun k => ?_⟩, hconcat.tight⟩
      rw [iter_push, hconcat.holds.newest_eq, hrows', lookupKey_sealedRows_or _ hentries,
        flagsOf_concat]
    · rw [last_push, hrows', dropLast_concat, getLast?_concat]
      rfl
    · rw [sealRows_admitted h.flags hseal, zero_add, entries, filter_map,
        length_map, countP_eq_length_filter]
      rfl
  · cases he

variable {s s' : EpochStore}

lemma EpochStore.mergeIn_normal (hkind : s.kind = .normal levels)
    (hrun : s.mergeIn (.normal new) = (.ok n, s')) :
    ∃ levels', Kyzo.mergeNormal levels new = (.ok n, levels') ∧ s'.kind = .normal levels' := by
  rw [EpochStore.mergeIn.eq_def] at hrun
  simp only [hkind] at hrun
  rcases hmerge : Kyzo.mergeNormal levels new with ⟨e | m, levels'⟩
  · rw [hmerge] at hrun
    cases hrun
  · rw [hmerge] at hrun
    cases hrun
    exact ⟨levels', rfl, rfl⟩

/-- **A run of merges.** -/
theorem Merged.mergeAll {news : List RegularTempStore} (hkind : s.kind = .normal levels)
    (h : Merged levels outs) {ns : List ℕ} (hrun : s.mergeAll (news.map .normal) = .ok (s', ns)) :
    (∃ levels', s'.kind = .normal levels' ∧ Merged levels' (outs ++ news)) ∧
      ns.length = news.length ∧
      ∀ n, ns.getLast? = some n → ∃ earlier new, outs ++ news = earlier ++ [new] ∧
        n = (new.entries.filter fun e => (flagsOf earlier e.1).isNone).length := by
  induction news generalizing s levels outs ns with
  | nil =>
    cases hrun
    exact ⟨⟨levels, hkind, by rwa [append_nil]⟩, rfl, by simp⟩
  | cons new news ih =>
    rw [map_cons, EpochStore.mergeAll] at hrun
    rcases hstep : s.mergeIn (.normal new) with ⟨e | n, s₁⟩
    · simp only [hstep] at hrun
      cases hrun
    · simp only [hstep] at hrun
      obtain ⟨⟨s₂, ns'⟩, hrest, heq⟩ := map_eq_ok.mp hrun
      cases heq
      obtain ⟨levels₁, hmerge, hkind₁⟩ := EpochStore.mergeIn_normal hkind hstep
      obtain ⟨hmerged₁, hn⟩ := h.mergeNormal hmerge
      obtain ⟨hlevels, hlen, hlast⟩ := ih hkind₁ hmerged₁ hrest
      rw [append_assoc] at hlevels hlast
      refine ⟨hlevels, by simp [hlen], ?_⟩
      intro m hm
      rcases ns' with _ | ⟨n', ns'⟩
      · -- The call just made was the last one.
        have hnil : news = [] := eq_nil_of_length_eq_zero (by simpa using hlen.symm)
        obtain rfl : n = m := by simpa using hm
        exact ⟨outs, new, by rw [hnil], hn⟩
      · exact hlast m (by simpa using hm)

/-! ## The flags and the delta, in rows -/

section

variable (outs)

/-- The entries of the last out-store. -/
def lastEntries : List (Bytes × LimiterSkip) :=
  outs.getLast?.elim [] entries

lemma keysAscend_lastEntries : KeysAscend (lastEntries outs) := by
  rw [lastEntries]
  rcases outs.getLast? with _ | new
  · exact Pairwise.nil
  · exact new.keysAscend_entries

lemma flagsOf_eq (k : Bytes) :
    flagsOf outs k = (lookupKey (lastEntries outs) k).or (flagsOf outs.dropLast k) := by
  rcases eq_nil_or_concat outs with rfl | ⟨earlier, new, rfl⟩
  · rfl
  · rw [concat_eq_append, flagsOf_concat, lastEntries, getLast?_concat, dropLast_concat]
    rfl

/-- A key is in the last out-store and in no earlier one. -/
def newKey (k : Bytes) : Bool :=
  (lookupKey (lastEntries outs) k).isSome && (flagsOf outs.dropLast k).isNone

lemma flagsOf_bare (t : Tuple) : flagsOf outs t.bare = latestSkip outs t := by
  rw [flagsOf, newest, ← map_reverse, findSome?_map]
  congr 1
  funext o
  exact o.lookupKey_entries t

lemma newKey_bare (t : Tuple) : newKey outs t.bare = newInLast outs t := by
  have hexists : ∀ o : RegularTempStore, (lookupKey o.entries t.bare).isSome = o.existsKey t := by
    intro o
    rw [o.lookupKey_entries, existsKey, Std.TreeMap.contains_eq_isSome_getElem?]
  have hlast : (lookupKey (lastEntries outs) t.bare).isSome =
      outs.getLast?.any (·.existsKey t) := by
    rw [lastEntries]
    rcases outs.getLast? with _ | new
    · rfl
    · exact hexists new
  have hearlier : (flagsOf outs.dropLast t.bare).isNone =
      outs.dropLast.all fun o => !o.existsKey t := by
    rw [Bool.eq_iff_iff, Option.isNone_iff_eq_none, flagsOf, newest, findSome?_eq_none_iff,
      all_eq_true]
    simp only [mem_reverse, forall_mem_map, ← hexists, not_eq_true',
      Option.isSome_eq_false_iff, Option.isNone_iff_eq_none]
  rw [newKey, hlast, hearlier, newInLast]

end

lemma exists_bare_of_flagsOf {k : Bytes} {skip : LimiterSkip}
    (h : flagsOf outs k = some skip) : ∃ t : Tuple, t.bare = k := by
  have hasc : ∀ l ∈ outs.map entries, KeysAscend l := by
    intro l hl
    obtain ⟨o, -, rfl⟩ := mem_map.mp hl
    exact o.keysAscend_entries
  obtain ⟨l, hl, hmem⟩ := exists_mem_of_newest hasc h
  obtain ⟨o, -, rfl⟩ := mem_map.mp hl
  exact exists_bare_of_mem_entries hmem

namespace Merged

variable (h : Merged levels outs)
include h

lemma admittedRows_eq_lastEntries : levels.last.admittedRows =
      (lastEntries outs).filter fun e => (flagsOf outs.dropLast e.1).isNone := by
  rw [admittedRows, h.delta, sealedRows_filter_admitted]
  rfl

lemma admittedRows_eq :
    levels.last.admittedRows = (contents rows skip levels.iter).filter fun e =>
      newKey outs e.1 := by
  rw [h.admittedRows_eq_lastEntries]
  refine eq_of_lookupKey ((keysAscend_lastEntries outs).filter _)
    (h.flags.holds.keysAscend_contents.filter _) ?_
  intro k
  rw [lookupKey_filter _ fun k => (flagsOf outs.dropLast k).isNone, lookupKey_filter,
    h.flags.holds.lookupKey_contents, flagsOf_eq outs k, newKey]
  rcases lookupKey (lastEntries outs) k with _ | skip
  · rcases flagsOf outs.dropLast k with _ | old <;> rfl
  · rcases flagsOf outs.dropLast k with _ | old <;> rfl

/-- What a scan ranges over: the delta, or everything. -/
def scanned (levels : LevelStack NormalLevel) (deltaOnly : Bool) : List (Bytes × LimiterSkip) :=
  if deltaOnly then levels.last.admittedRows else contents rows skip levels.iter

lemma normalMerge_picked (p : Bytes → Bool) (deltaOnly : Bool)
    {cursor : NormalLevel → List (Bytes × RowFlags)}
    (hcursor : ∀ l ∈ levels.iter, cursor l = l.rows.filter fun e => p e.1) :
    normalMerge ((EpochStore.picked levels deltaOnly).map cursor) deltaOnly =
      ((scanned levels deltaOnly).filter fun e => p e.1).map rowView := by
  cases deltaOnly
  · rw [scanned, if_neg (by simp), ← h.flags.normalMerge_eq p, EpochStore.picked,
      if_neg (by simp), map_congr_left hcursor]
  · have hlast := levels.last_mem_iter
    rw [scanned, if_pos rfl, EpochStore.picked, if_pos rfl, map_singleton,
      hcursor _ hlast, normalMerge_delta (h.flags.holds.ascend _ hlast)]

omit h in
/-- **A ranged scan.** -/
theorem ranged (hkind : s.kind = .normal levels) (h : Merged levels outs)
    (lower upper : Bytes) (upperInclusive deltaOnly : Bool) :
    s.ranged lower upper upperInclusive deltaOnly =
      .ok (((scanned levels deltaOnly).filter fun e =>
        withinBounds lower upper upperInclusive e.1).map rowView) := by
  rw [EpochStore.ranged.eq_def]
  simp only [hkind]
  rw [h.normalMerge_picked (withinBounds lower upper upperInclusive)]
  intro l hl
  exact slice_bounds (h.flags.holds.ascend l hl) lower upper upperInclusive

lemma exists_rows : ∃ rows : List (Tuple × LimiterSkip),
      contents NormalLevel.rows skip levels.iter = rows.map fun e => (e.1.bare, e.2) := by
  have hall : ∀ e ∈ contents rows skip levels.iter, ∃ t : Tuple, t.bare = e.1 := by
    rintro ⟨k, skip⟩ he
    exact exists_bare_of_flagsOf (h.flags.holds.mem_contents.mp he)
  generalize contents rows skip levels.iter = l at hall
  induction l with
  | nil => exact ⟨[], rfl⟩
  | cons e l ih =>
    obtain ⟨⟨t, ht⟩, hl⟩ := forall_mem_cons.mp hall
    obtain ⟨rows, rfl⟩ := ih hl
    exact ⟨(t, e.2) :: rows, by rw [map_cons, ht]⟩

omit h

section Rows

variable {rows : List (Tuple × LimiterSkip)}
  (hrows : contents NormalLevel.rows skip levels.iter = rows.map fun e => (e.1.bare, e.2))

include hrows

section

variable (h : Merged levels outs)
include h

lemma pairwise_rows : rows.Pairwise fun a b => compare a.1 b.1 = .lt := by
  have hasc := h.flags.holds.keysAscend_contents
  rw [hrows] at hasc
  refine (pairwise_map.mp hasc).imp ?_
  intro a b hab
  rwa [Tuple.compare_bare] at hab

lemma mem_rows (t : Tuple) (skip : LimiterSkip) :
    (t, skip) ∈ rows ↔ latestSkip outs t = some skip := by
  rw [← flagsOf_bare, ← h.flags.holds.mem_contents, hrows, mem_map]
  constructor
  · intro hmem
    exact ⟨_, hmem, rfl⟩
  · rintro ⟨⟨u, skip'⟩, hmem, heq⟩
    obtain ⟨hu, rfl⟩ := Prod.mk.inj heq
    rwa [← Tuple.bare_injective hu]

lemma admittedRows_eq_rows : levels.last.admittedRows =
      (rows.filter fun e => newInLast outs e.1).map fun e => (e.1.bare, e.2) := by
  rw [h.admittedRows_eq, hrows, filter_map]
  simp [Function.comp_def, newKey_bare]

lemma map_rowView_scanned (p : Bytes → Bool) (deltaOnly : Bool) :
    ((scanned levels deltaOnly).filter fun e => p e.1).map rowView =
      ((if deltaOnly then rows.filter fun e => newInLast outs e.1 else rows).filter
        fun e => p e.1.bare).map tupleView := by
  cases deltaOnly
  · simp only [scanned, false_eq_true, if_false, hrows, filter_map, map_map]
    rfl
  · simp only [scanned, if_true, h.admittedRows_eq_rows hrows, filter_map, map_map]
    rfl

end

variable (hkind : s.kind = .normal levels) (h : Merged levels outs)
include hkind h

lemma hasDelta_iff : s.hasDelta = true ↔ ∃ e ∈ rows, newInLast outs e.1 = true := by
  have hlast : s.hasDelta = true ↔ levels.last.admittedRows ≠ [] := by
    rw [EpochStore.hasDelta.eq_def]
    simp only [hkind]
    rw [admittedRows, NormalLevel.rows]
    simp
  rw [hlast, h.admittedRows_eq_rows hrows]
  simp [not_forall, not_eq_true, not_eq_false]

lemma existsKey_iff (t : Tuple) : s.existsKey t = true ↔ ∃ skip, (t, skip) ∈ rows := by
  have hflags : s.existsKey t = (flagsOf outs t.bare).isSome := by
    rw [← h.flags.holds.newest_eq, Option.isSome_map, newest, EpochStore.existsKey.eq_def]
    simp only [hkind]
    rw [Bool.eq_iff_iff, any_eq_true, findSome?_isSome_iff]
    simp only [mem_reverse, mem_map, exists_exists_and_eq_and]
    refine exists_congr fun l => and_congr_right fun hl => ?_
    rw [isSome_find (h.flags.holds.ascend l hl)]
  rw [hflags, flagsOf_bare, Option.isSome_iff_exists]
  simp [h.mem_rows hrows]

end Rows

/-- **A projected scan**, over walkable rows of one arity. -/
theorem prefixIterProjected {rows : List (Tuple × LimiterSkip)}
    (hrows : contents NormalLevel.rows skip levels.iter = rows.map fun e => (e.1.bare, e.2))
    (hkind : s.kind = .normal levels) (h : Merged levels outs) {n : ℕ}
    (hshape : ∀ e ∈ rows, e.1.Shallow ∧ e.1.length = n) (row : Tuple) (cols : List ℕ)
    (deltaOnly : Bool) :
    s.prefixIterProjected row cols deltaOnly =
      .ok (((if deltaOnly then rows.filter fun e => newInLast outs e.1 else rows).filter
        fun e => decide (projected row cols <+: e.1)).map tupleView) := by
  have hslice : ∀ l ∈ levels.iter, l.slice (l.prefixBounds row cols) =
      l.rows.filter fun e => selects (projected row cols) e.1 := by
    intro l hl
    refine slice_prefixBounds (n := n) (h.flags.holds.ascend l hl) ?_ row cols
    intro e he
    obtain ⟨skip, hskip⟩ := h.flags.holds.exists_of_mem_rows hl he
    have hmem := h.flags.holds.mem_contents.mpr hskip
    rw [hrows] at hmem
    obtain ⟨⟨t, skip'⟩, ht, heq⟩ := mem_map.mp hmem
    exact ⟨t, (Prod.mk.inj heq).1, hshape _ ht⟩
  rw [EpochStore.prefixIterProjected.eq_def]
  simp only [hkind]
  rw [h.normalMerge_picked _ deltaOnly hslice, h.map_rowView_scanned hrows]
  congr 2
  refine filter_congr ?_
  intro e he
  have hmem : e ∈ rows := by
    cases deltaOnly
    · exact he
    · exact (mem_filter.mp he).1
  exact selects_bare (hshape e hmem).1 _

end Merged

/-! ## Refinement -/

/-- **A normal store refines a map with an epoch delta.**  After any run of merges there is one list
of rows, strictly ascending, holding exactly the merged rows with the flags of the last out-stores
that contained them; full and delta scans, `exists`, ranges and prefixes read it back; and so do
projected probes when its rows have one arity and nest no deeper than the row walk reaches. -/
theorem normal_store_refines_map (arity : ℕ) (outs : List RegularTempStore) {store : EpochStore}
    {admitted : List ℕ}
    (hrun : (EpochStore.newNormal arity).mergeAll (outs.map .normal) = .ok (store, admitted)) :
    ∃ rows : List (Tuple × LimiterSkip),
      rows.Pairwise (fun a b => compare a.1 b.1 = .lt) ∧
      (∀ t skip, (t, skip) ∈ rows ↔ latestSkip outs t = some skip) ∧
      store.allIter = .ok (rows.map tupleView) ∧
      store.deltaAllIter = .ok ((rows.filter fun e => newInLast outs e.1).map tupleView) ∧
      (store.hasDelta = true ↔ ∃ e ∈ rows, newInLast outs e.1 = true) ∧
      admitted.length = outs.length ∧
      (∀ n, admitted.getLast? = some n → n = (rows.filter fun e => newInLast outs e.1).length) ∧
      (∀ t, store.existsKey t = true ↔ ∃ skip, (t, skip) ∈ rows) ∧
      (∀ lower upper upperInclusive, store.rangeIter lower upper upperInclusive =
        .ok ((rows.filter fun e => inBounds lower upper upperInclusive e.1).map tupleView)) ∧
      (∀ p, store.prefixIter p = .ok ((rows.filter fun e => decide (p <+: e.1)).map tupleView)) ∧
      ∀ n, (∀ e ∈ rows, e.1.Shallow ∧ e.1.length = n) → ∀ row cols deltaOnly,
        store.prefixIterProjected row cols deltaOnly =
          .ok (((if deltaOnly then rows.filter fun e => newInLast outs e.1 else rows).filter
            fun e => decide (projected row cols <+: e.1)).map tupleView) := by
  obtain ⟨⟨levels, hkind, h⟩, hlen, hlast⟩ := Merged.mergeAll rfl merged_singleton hrun
  rw [nil_append] at h hlast
  obtain ⟨rows, hrows⟩ := h.exists_rows
  have hscan : ∀ (p : Tuple) deltaOnly, store.ranged p.bare (p.bare ++ [0xFF]) true deltaOnly =
      .ok (((if deltaOnly then rows.filter fun e => newInLast outs e.1 else rows).filter
        fun e => decide (p <+: e.1)).map tupleView) := by
    intro p deltaOnly
    rw [Merged.ranged hkind h, h.map_rowView_scanned hrows]
    simp [withinBounds_isPrefix]
  refine ⟨rows, h.pairwise_rows hrows, h.mem_rows hrows, ?_, ?_, h.hasDelta_iff hrows hkind, hlen,
    ?_, h.existsKey_iff hrows hkind, ?_, fun p => hscan p false, ?_⟩
  · refine (hscan [] false).trans ?_
    simp
  · refine (hscan [] true).trans ?_
    simp
  · intro n hn
    obtain ⟨earlier, new, rfl, hcount⟩ := hlast n hn
    have hdelta := h.admittedRows_eq_rows hrows
    rw [h.admittedRows_eq_lastEntries, lastEntries, getLast?_concat, dropLast_concat] at hdelta
    have hlength := congrArg length hdelta
    rw [length_map] at hlength
    exact hcount.trans hlength
  · intro lower upper upperInclusive
    rw [EpochStore.rangeIter, Merged.ranged hkind h, h.map_rowView_scanned hrows]
    simp only [withinBounds_bare]
    rfl
  · intro n hshape row cols deltaOnly
    exact h.prefixIterProjected hrows hkind hshape row cols deltaOnly

/-- Two merges of one row, the second past the limit together with a new row: the flag of the first
row is refreshed, and the new row alone is admitted. -/
theorem normal_store_refines_map_refresh :
    ∃ (store : EpochStore) (rows : List (Tuple × LimiterSkip)),
      (EpochStore.newNormal 1).mergeAll
          ([empty.put [.bool true],
            (empty.putWithSkip [.bool true]).put [.bool false]].map .normal) =
        .ok (store, [1, 1]) ∧
      store.allIter = .ok (rows.map tupleView) ∧
      (∀ t skip, (t, skip) ∈ rows ↔ latestSkip [empty.put [.bool true],
          (empty.putWithSkip [.bool true]).put [.bool false]] t = some skip) := by
  obtain ⟨store, hstore⟩ : ∃ store, (EpochStore.newNormal 1).mergeAll
      ([empty.put [.bool true], (empty.putWithSkip [.bool true]).put [.bool false]].map .normal) =
      .ok (store, [1, 1]) := ⟨_, rfl⟩
  obtain ⟨rows, -, hmem, hall, -⟩ := normal_store_refines_map 1 _ hstore
  exact ⟨store, rows, hstore, hall, hmem⟩

/-- A projected probe misses a row it should select once rows of different arities are mixed: the
bound search meets the short row first and takes it to lie below the probe. -/
theorem prefixIterProjected_misses_row : ∃ store : EpochStore,
      (EpochStore.newNormal 2).mergeAll
          [.normal ((empty.put [.bool false, .bool false]).put [.bool true])] =
        .ok (store, [2]) ∧
      store.allIter = .ok [tupleView ([.bool false, .bool false], .included),
        tupleView ([.bool true], .included)] ∧
      store.prefixIterProjected [.bool false, .bool false] [0, 1] false = .ok [] ∧
      projected [.bool false, .bool false] [0, 1] <+: [.bool false, .bool false] :=
  ⟨_, rfl, rfl, rfl, prefix_rfl⟩

end Kyzo

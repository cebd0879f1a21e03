import Kyzo.Session.PlainIndex

/-!
# A plain index mirrors its base relation

While no version is backdated, the versions of a key and of its index rows are written in the order
of both time axes.  A write is then invisible together with its index versions, or it decides its
key and they decide its index rows; either way the index keeps showing the projection of the base
rows.
-/

namespace Kyzo

open List Int64 Mirror Timeline

open Version (timeline)

namespace Mirror

/-! ## Projections -/

variable {mapper : List ℕ}

section Projection

variable {schema : Schema} {row row' p : Tuple}

/-- A mapper over a schema: all key columns, and columns only. -/
structure Covers (schema : Schema) (mapper : List ℕ) : Prop where
  keys : ∀ i < schema.keys, i ∈ mapper
  bound : ∀ i ∈ mapper, i < schema.arity

lemma covers_mapperOf {cols : List ℕ} (h : ∀ c ∈ cols, c < schema.arity) :
    Covers schema (mapperOf schema cols) where
  keys := by
    intro i hi
    by_cases hmem : i ∈ cols
    · exact mem_append_left _ hmem
    · refine mem_append_right _ (mem_filter.mpr ⟨mem_range.mpr hi, ?_⟩)
      simpa using hmem
  bound := by
    intro i hi
    obtain hcols | hkeys := mem_append.mp hi
    · exact h i hcols
    · have hlt := mem_range.mp (mem_filter.mp hkeys).1
      exact hlt.trans_le schema.keys_le

lemma getElem?_of_projectMapper (h : projectMapper mapper row = some p)
    (h' : projectMapper mapper row' = some p) {i : ℕ} (hi : i ∈ mapper) : row[i]? = row'[i]? := by
  have hmap : mapper.map (row[·]?) = mapper.map (row'[·]?) :=
    (mapM_eq_some.mp h).trans (mapM_eq_some.mp h').symm
  exact map_inj_left.mp hmap i hi

/-- **An index row names the key of its base row.** -/
theorem take_eq_of_projectMapper (hcovers : Covers schema mapper)
    (h : projectMapper mapper row = some p) (h' : projectMapper mapper row' = some p) :
    row.take schema.keys = row'.take schema.keys := by
  refine ext_getElem? fun i => ?_
  rw [getElem?_take, getElem?_take]
  split_ifs with hi
  · exact getElem?_of_projectMapper h h' (hcovers.keys i hi)
  · rfl

end Projection

/-! ## Rows that are visible -/

/-- The logical rows visible as of a pair of times. -/
def visibleRows (versions : List Version) (valid sys : Int64) : List Tuple :=
  (timeline.holding valid.toInt sys.toInt versions).map Version.logicalRow

lemma mem_visibleRows {versions : List Version} {valid sys : Int64} {row : Tuple} :
    row ∈ visibleRows versions valid sys ↔
      ∃ r, timeline.Held valid.toInt sys.toInt versions r ∧ r.logicalRow = row := by
  simp [visibleRows, mem_map, mem_holding]

/-- The versions of one relation at one version a coordinate, each key of one width. -/
structure Stored (rel : RelationId) (keys : ℕ) (versions : List Version) : Prop where
  rel : ∀ r ∈ versions, r.rel = rel
  width : ∀ r ∈ versions, r.fact.length = keys
  distinct : timeline.Distinct versions

namespace Stored

variable {rel : RelationId} {keys : ℕ} {versions : List Version} {r : Version} {valid sys : Int64}
  {row key : Tuple}

lemma nil : Stored rel keys [] where
  rel := fun _ hr => absurd hr not_mem_nil
  width := fun _ hr => absurd hr not_mem_nil
  distinct := fun _ hr => absurd hr not_mem_nil

section

variable (h : Stored rel keys versions)

include h

lemma write (hrel : r.rel = rel) (hwidth : r.fact.length = keys) :
    Stored rel keys (timeline.write r versions) where
  rel := forall_mem_write hrel h.rel
  width := forall_mem_write hwidth h.width
  distinct := h.distinct.write r

lemma take_logicalRow (hr : r ∈ versions) : r.logicalRow.take keys = r.fact := by
  rw [Version.logicalRow, ← h.width r hr, take_left]

lemma fact_eq_iff {d : Version} (hr : r ∈ versions) (hd : d.rel = rel) :
    timeline.fact r = timeline.fact d ↔ r.fact = d.fact := by
  change (r.rel, r.fact) = (d.rel, d.fact) ↔ _
  rw [h.rel r hr, hd, Prod.mk.injEq, and_iff_right rfl]

/-- **`current_row` finds the row that is visible at its key.** -/
theorem currentRow_eq_some_iff : currentRow versions key valid = some row ↔
      row ∈ visibleRows versions valid maxValidityTs ∧ row.take keys = key := by
  rw [currentRow, Option.map_eq_some_iff, mem_visibleRows]
  constructor
  · rintro ⟨r, hfind, rfl⟩
    have hheld := mem_holding.mp (mem_of_find?_eq_some hfind)
    have hkey : r.fact = key := by simpa using find?_some hfind
    exact ⟨⟨r, hheld, rfl⟩, (h.take_logicalRow hheld.1).trans hkey⟩
  · rintro ⟨⟨r, hheld, rfl⟩, hkey⟩
    rw [h.take_logicalRow hheld.1] at hkey
    have hmem := mem_holding.mpr hheld
    obtain ⟨d, hfind⟩ := Option.isSome_iff_exists.mp
      (find?_isSome.mpr ⟨r, hmem, by simpa using hkey⟩ :
        ((timeline.holding valid.toInt maxValidityTs.toInt versions).find?
          (fun r => r.fact = key)).isSome = true)
    have hd := mem_holding.mp (mem_of_find?_eq_some hfind)
    have hdkey : d.fact = key := by simpa using find?_some hfind
    have hfact : timeline.fact d = timeline.fact r :=
      (h.fact_eq_iff hd.1 (h.rel r hheld.1)).mpr (hdkey.trans hkey.symm)
    obtain rfl := h.distinct.eq_of_held hheld hd hfact
    exact ⟨d, hfind, rfl⟩

end

lemma visibleRows_write_of_invisible (hr : ¬ timeline.Visible valid.toInt sys.toInt r) :
    row ∈ visibleRows (timeline.write r versions) valid sys ↔
      row ∈ visibleRows versions valid sys := by
  rw [mem_visibleRows, mem_visibleRows]
  refine exists_congr fun d => and_congr_left fun _ => ?_
  exact held_write_of_invisible hr

/-- **A visible write that no version of its key is later than replaces the row of its key.** -/
theorem visibleRows_write (h : Stored rel keys versions) (hrel : r.rel = rel)
    (hwidth : r.fact.length = keys) (hr : timeline.Visible valid.toInt sys.toInt r)
    (hpolarity : r.polarity ≠ .erase)
    (hwithin : ∀ d ∈ versions, d.fact = r.fact → d.valid ≤ r.valid ∧ d.sys ≤ r.sys) :
    row ∈ visibleRows (timeline.write r versions) valid sys ↔
      (row ∈ visibleRows versions valid sys ∧ row.take keys ≠ r.fact) ∨
        (r.polarity = .assert ∧ row = r.logicalRow) := by
  have hin : timeline.Within versions (timeline.fact r) (timeline.valid r) (timeline.sys r) := by
    intro d hd hfact
    obtain ⟨hv, hs⟩ := hwithin d hd ((h.fact_eq_iff hd hrel).mp hfact)
    exact ⟨le_iff_toInt_le.mp hv, le_iff_toInt_le.mp hs⟩
  have hstance : timeline.stance r ≠ .unrecorded := by
    change r.polarity.stance ≠ .unrecorded
    rcases hp : r.polarity with _ | _ | _
    · decide
    · decide
    · exact absurd hp hpolarity
  have hholds : timeline.stance r = .holds ↔ r.polarity = .assert := by
    change r.polarity.stance = .holds ↔ _
    rcases r.polarity with _ | _ | _ <;> decide
  rw [mem_visibleRows, mem_visibleRows]
  constructor
  · rintro ⟨d, hd, rfl⟩
    by_cases hfact : timeline.fact d = timeline.fact r
    · obtain ⟨rfl, hstands⟩ := (held_write_self hr hstance hin hfact).mp hd
      exact .inr ⟨hholds.mp hstands, rfl⟩
    · have hold := (held_write_of_ne hfact).mp hd
      refine .inl ⟨⟨d, hold, rfl⟩, fun heq => hfact ?_⟩
      rw [h.take_logicalRow hold.1] at heq
      exact (h.fact_eq_iff hold.1 hrel).mpr heq
  · rintro (⟨⟨d, hd, rfl⟩, hne⟩ | ⟨hassert, rfl⟩)
    · rw [h.take_logicalRow hd.1] at hne
      have hfact : timeline.fact d ≠ timeline.fact r :=
        fun heq => hne ((h.fact_eq_iff hd.1 hrel).mp heq)
      exact ⟨d, (held_write_of_ne hfact).mpr hd, rfl⟩
    · exact ⟨r, (held_write_self hr hstance hin rfl).mpr ⟨rfl, hholds.mpr hassert⟩, rfl⟩

lemma visibleRows_of_within (h : Stored rel keys versions) {valid' sys' v s : Int64}
    (hwithin : ∀ d ∈ versions, d.fact = row.take keys → d.valid ≤ v ∧ d.sys ≤ s)
    (hvalid : v ≤ valid) (hsys : s ≤ sys) (hvalid' : v ≤ valid') (hsys' : s ≤ sys') :
    row ∈ visibleRows versions valid sys ↔ row ∈ visibleRows versions valid' sys' := by
  rw [mem_visibleRows, mem_visibleRows]
  refine exists_congr fun r => ?_
  constructor
  all_goals
    rintro ⟨hheld, rfl⟩
    refine ⟨?_, rfl⟩
    have hin : timeline.Within versions (timeline.fact r) v.toInt s.toInt := by
      intro d hd hfact
      have hkey : d.fact = r.logicalRow.take keys := by
        rw [h.take_logicalRow hheld.1]
        exact (h.fact_eq_iff hd (h.rel r hheld.1)).mp hfact
      obtain ⟨hv, hs⟩ := hwithin d hd hkey
      exact ⟨le_iff_toInt_le.mp hv, le_iff_toInt_le.mp hs⟩
  · exact (held_of_within hin (le_iff_toInt_le.mp hvalid)
      (le_iff_toInt_le.mp hsys) (le_iff_toInt_le.mp hvalid')
      (le_iff_toInt_le.mp hsys') rfl).mp hheld
  · exact (held_of_within hin (le_iff_toInt_le.mp hvalid')
      (le_iff_toInt_le.mp hsys') (le_iff_toInt_le.mp hvalid)
      (le_iff_toInt_le.mp hsys) rfl).mp hheld

end Stored

/-! ## Index writes -/

variable {v s : Int64} {polarity : ClaimPolarity}

section IndexWrites

variable {ids : MirrorIds} {schema : Schema} {idx idx' : PlainIndex} {row : Option Tuple}
  {valid stamp : Int64} {p : Tuple}

/-- What `update_indices` writes: the old row is retracted, then the new one asserted. -/
abbrev rewritten (ids : MirrorIds) (idx : PlainIndex) (old new : Option Tuple)
    (valid stamp : Int64) : Option PlainIndex :=
  (indexWriteOf ids idx old .retract valid stamp).bind fun idx =>
    indexWriteOf ids idx new .assert valid stamp

/-- The index row of a row that may be missing. -/
def projects (mapper : List ℕ) (row : Option Tuple) (p : Tuple) : Prop :=
  row.bind (projectMapper mapper) = some p

/-- The versions of a plain index: its rows have no other columns than their keys. -/
structure IndexStored (ids : MirrorIds) (schema : Schema) (stamp : Int64) (idx : PlainIndex) :
    Prop where
  stored : Stored ids.indexId idx.mapper.length idx.versions
  flat : ∀ r ∈ idx.versions, r.payload = []
  sys : ∀ r ∈ idx.versions, r.sys ≤ stamp
  covers : Covers schema idx.mapper

lemma length_projectMapper {mapper : List ℕ} {row : Tuple} (h : projectMapper mapper row = some p) :
    p.length = mapper.length := by
  simpa using (congrArg length (mapM_eq_some.mp h)).symm

variable (h : IndexStored ids schema stamp idx)
include h

lemma IndexStored.take_visible
    (hp : p ∈ visibleRows idx.versions v s) : p.take idx.mapper.length = p := by
  obtain ⟨r, hr, rfl⟩ := mem_visibleRows.mp hp
  rw [h.stored.take_logicalRow hr.1, Version.logicalRow, h.flat r hr.1, append_nil]

lemma IndexStored.indexWriteOf
    (hwrite : indexWriteOf ids idx row polarity valid stamp = some idx') :
    IndexStored ids schema stamp idx' ∧ idx'.mapper = idx.mapper ∧ idx'.created = idx.created ∧
      ∀ r ∈ idx'.versions, r ∈ idx.versions ∨ r.valid = valid := by
  unfold Mirror.indexWriteOf at hwrite
  split at hwrite
  · obtain ⟨fact, hfact, rfl⟩ := Option.map_eq_some_iff.mp hwrite
    exact ⟨⟨h.stored.write rfl (length_projectMapper hfact), forall_mem_write rfl h.flat,
      forall_mem_write (Int64.le_refl _) h.sys, h.covers⟩, rfl, rfl,
      forall_mem_write (.inr rfl) fun r hr => .inl hr⟩
  · cases hwrite
    exact ⟨h, rfl, rfl, fun r hr => .inl hr⟩

omit h in
lemma visibleRows_indexWriteOf_of_invisible (hinvisible : ¬(valid ≤ v ∧ stamp ≤ s))
    (hwrite : indexWriteOf ids idx row polarity valid stamp = some idx') :
    p ∈ visibleRows idx'.versions v s ↔ p ∈ visibleRows idx.versions v s := by
  unfold indexWriteOf at hwrite
  split at hwrite
  · obtain ⟨fact, -, rfl⟩ := Option.map_eq_some_iff.mp hwrite
    refine Stored.visibleRows_write_of_invisible fun hvisible => hinvisible ?_
    exact ⟨le_iff_toInt_le.mpr hvisible.1, le_iff_toInt_le.mpr hvisible.2⟩
  · cases hwrite
    exact Iff.rfl

/-- **An index write that no version of its row is later than** decides its row. -/
theorem IndexStored.visibleRows_indexWriteOf
    (hvalid : valid ≤ v) (hsys : stamp ≤ s) (hpolarity : polarity ≠ .erase)
    (hlatest : ∀ r ∈ idx.versions, projects idx.mapper row r.fact → r.valid ≤ valid)
    (hwrite : Mirror.indexWriteOf ids idx row polarity valid stamp = some idx') :
    p ∈ visibleRows idx'.versions v s ↔
      (p ∈ visibleRows idx.versions v s ∧ ¬ projects idx.mapper row p) ∨
        (polarity = .assert ∧ projects idx.mapper row p) := by
  unfold Mirror.indexWriteOf at hwrite
  split at hwrite
  · rename_i row
    obtain ⟨fact, hfact, rfl⟩ := Option.map_eq_some_iff.mp hwrite
    have hprojects : ∀ q, projects idx.mapper (some row) q ↔ q = fact := fun q =>
      ⟨fun hq => (Option.some.inj (hfact.symm.trans hq)).symm, fun hq => hq ▸ hfact⟩
    have hwithin : ∀ d ∈ idx.versions, d.fact = fact → d.valid ≤ valid ∧ d.sys ≤ stamp :=
      fun d hd hdf => ⟨hlatest d hd ((hprojects d.fact).mpr hdf), h.sys d hd⟩
    have hvisible : timeline.Visible v.toInt s.toInt (indexVersion ids fact polarity valid stamp) :=
      ⟨le_iff_toInt_le.mp hvalid, le_iff_toInt_le.mp hsys⟩
    have hrow : (indexVersion ids fact polarity valid stamp).logicalRow = fact := append_nil fact
    refine (h.stored.visibleRows_write rfl (length_projectMapper hfact) hvisible hpolarity
      hwithin).trans ?_
    rw [hrow, hprojects]
    refine or_congr (and_congr_right fun hp => not_congr ?_) Iff.rfl
    rw [h.take_visible hp]
    exact Iff.rfl
  · cases hwrite
    have hnone : ¬ projects idx.mapper none p := fun hp => nomatch hp
    simp [hnone]

end IndexWrites

/-! ## One row -/

/-- The index shows the projection of the base rows as of a pair of times. -/
def Shows (idx : PlainIndex) (base : List Version) (valid sys : Int64) : Prop :=
  ∀ p, p ∈ visibleRows idx.versions valid sys ↔
    ∃ row ∈ visibleRows base valid sys, projectMapper idx.mapper row = some p

/-- What a mutation's row does: it asserts a row and tells the index of it and of the row it
replaces, or it repeats the row that governs, or it retracts. -/
inductive Shape (current : Option Tuple) (key row : Tuple) :
    ClaimPolarity → Option Tuple → Option Tuple → Prop
  | replace : Shape current key row .assert (some row) current
  | repeated (same : current = some row) : Shape current key row .assert none none
  | retract (bare : row = key) : Shape current key row .retract none current

section Replace

variable {keys : ℕ} (B B' X X' : Tuple → Prop) {current new old : Option Tuple} {key row : Tuple}

/-- **The index keeps showing the projection** where a write decides its key and its index rows. -/
theorem shows_of_shape (hinj : ∀ {r r' p}, projectMapper mapper r = some p →
      projectMapper mapper r' = some p → r.take keys = r'.take keys)
    (hshape : Shape current key row polarity new old) (hkey : row.take keys = key)
    (hcurrent : ∀ r, current = some r ↔ B r ∧ r.take keys = key)
    (hbase : ∀ r, B' r ↔ (B r ∧ r.take keys ≠ key) ∨ (polarity = .assert ∧ r = row))
    (hindex : ∀ p, X' p ↔ (X p ∧ ¬ projects mapper old p ∧ ¬ projects mapper new p) ∨
      projects mapper new p)
    (hshows : ∀ p, X p ↔ ∃ r, B r ∧ projectMapper mapper r = some p) (p : Tuple) :
    X' p ↔ ∃ r, B' r ∧ projectMapper mapper r = some p := by
  -- An index row of the current row belongs to no row of another key.
  have hother : ∀ {r}, r.take keys ≠ key → projectMapper mapper r = some p →
      ¬ projects mapper current p := by
    intro r hne hr hcur
    obtain ⟨c, hc, hcp⟩ := Option.bind_eq_some_iff.mp hcur
    exact hne ((hinj hr hcp).trans ((hcurrent c).mp hc).2)
  have hsplit : ∀ {r}, B r → projectMapper mapper r = some p → ¬ projects mapper current p →
      r.take keys ≠ key := by
    intro r hr hp hcur heq
    refine hcur ?_
    rw [(hcurrent r).mpr ⟨hr, heq⟩]
    exact hp
  rw [hindex p, hshows p]
  cases hshape with
  | replace =>
    constructor
    · rintro (⟨⟨r, hr, hp⟩, hold, -⟩ | hnew)
      · exact ⟨r, (hbase r).mpr (.inl ⟨hr, hsplit hr hp hold⟩), hp⟩
      · exact ⟨row, (hbase row).mpr (.inr ⟨rfl, rfl⟩), hnew⟩
    · rintro ⟨r, hr, hp⟩
      by_cases hnew : projects mapper (some row) p
      · exact .inr hnew
      obtain ⟨hr, hne⟩ | ⟨-, rfl⟩ := (hbase r).mp hr
      · exact .inl ⟨⟨r, hr, hp⟩, hother hne hp, hnew⟩
      · exact absurd hp hnew
  | repeated hsame =>
    have hsame' : ∀ r, B' r ↔ B r := by
      intro r
      rw [hbase r]
      constructor
      · rintro (⟨hr, -⟩ | ⟨-, rfl⟩)
        · exact hr
        · exact ((hcurrent r).mp hsame).1
      · intro hr
        by_cases hne : r.take keys = key
        · exact .inr ⟨rfl, (Option.some.inj (hsame.symm.trans ((hcurrent r).mpr ⟨hr, hne⟩))).symm⟩
        · exact .inl ⟨hr, hne⟩
    have hnone : ¬ projects mapper none p := fun hp => nomatch hp
    simp [hnone, not_false_eq_true, and_true, or_false, hsame']
  | retract =>
    have hnone : ¬ projects mapper none p := fun hp => nomatch hp
    simp only [hnone, not_false_eq_true, and_true, or_false]
    constructor
    · rintro ⟨⟨r, hr, hp⟩, hold⟩
      exact ⟨r, (hbase r).mpr (.inl ⟨hr, hsplit hr hp hold⟩), hp⟩
    · rintro ⟨r, hr, hp⟩
      obtain ⟨hr, hne⟩ | ⟨habsurd, -⟩ := (hbase r).mp hr
      · exact ⟨⟨r, hr, hp⟩, hother hne hp⟩
      · exact nomatch habsurd

end Replace

/-! ## The invariant -/

variable (ids : MirrorIds) (schema : Schema)

/-- What holds in every state of a run without backdated writes. -/
structure Sound (m : Mirror) : Prop where
  base : Stored ids.baseId schema.keys m.base
  sys : ∀ r ∈ m.base, r.sys ≤ m.stamp
  index : ∀ idx, m.index = some idx → IndexStored ids schema m.stamp idx
  shows : ∀ idx, m.index = some idx → ∀ valid sys, idx.created ≤ valid → idx.created ≤ sys →
    Shows idx m.base valid sys

/-- The condition on a step: no version of the key that is written, and none of an index row of that
key, is later than the write; the index is created when no base version is later than its stamp. -/
def Forward (m : Mirror) : Step → Prop
  | .begin _ => True
  | .mutate op => (∀ r ∈ m.base, r.fact = op.key schema → r.valid ≤ op.valid) ∧
    ∀ idx, m.index = some idx → ∀ r ∈ idx.versions, ∀ row : Tuple,
      row.take schema.keys = op.key schema → projectMapper idx.mapper row = some r.fact →
        r.valid ≤ op.valid
  | .createIndex _ => ∀ r ∈ m.base, r.valid ≤ m.stamp

variable {ids schema} {m m' : Mirror} {row key : Tuple} {new old : Option Tuple} {valid : Int64}

lemma le_maxValidityTs (t : Int64) : t ≤ maxValidityTs := by
  rw [le_iff_toInt_le]
  have hlt := t.toInt_lt
  have hmax : maxValidityTs.toInt = 2 ^ 63 - 1 := by decide
  omega

variable {idx idx' : PlainIndex} {stamp v s : Int64}

lemma IndexStored.visibleRows_update {p : Tuple} (h : IndexStored ids schema stamp idx)
    (hvalid : valid ≤ v) (hsys : stamp ≤ s)
    (hold : ∀ r ∈ idx.versions, projects idx.mapper old r.fact → r.valid ≤ valid)
    (hnew : ∀ r ∈ idx.versions, projects idx.mapper new r.fact → r.valid ≤ valid)
    (hwrite : rewritten ids idx old new valid stamp = some idx') :
    p ∈ visibleRows idx'.versions v s ↔
      (p ∈ visibleRows idx.versions v s ∧ ¬ projects idx.mapper old p ∧
        ¬ projects idx.mapper new p) ∨ projects idx.mapper new p := by
  obtain ⟨mid, hmid, hlast⟩ := Option.bind_eq_some_iff.mp hwrite
  obtain ⟨hstored, hmapper, -, hversions⟩ := h.indexWriteOf hmid
  have hlatest : ∀ r ∈ mid.versions, projects mid.mapper new r.fact → r.valid ≤ valid := by
    intro r hr hp
    obtain hr | heq := hversions r hr
    · exact hnew r hr (hmapper ▸ hp)
    · exact heq ▸ Int64.le_refl _
  rw [hstored.visibleRows_indexWriteOf hvalid hsys (by decide) hlatest hlast,
    h.visibleRows_indexWriteOf hvalid hsys (by decide) hold hmid, hmapper]
  have hretract : ClaimPolarity.retract ≠ .assert := by decide
  simp [hretract, false_and, or_false, true_and, and_assoc]

lemma IndexStored.update (h : IndexStored ids schema stamp idx)
    (hwrite : rewritten ids idx old new valid stamp = some idx') :
    IndexStored ids schema stamp idx' ∧ idx'.mapper = idx.mapper ∧ idx'.created = idx.created := by
  obtain ⟨mid, hmid, hlast⟩ := Option.bind_eq_some_iff.mp hwrite
  obtain ⟨hstored, hmapper, hcreated, -⟩ := h.indexWriteOf hmid
  obtain ⟨hstored', hmapper', hcreated', -⟩ := hstored.indexWriteOf hlast
  exact ⟨hstored', hmapper'.trans hmapper, hcreated'.trans hcreated⟩

/-- What `update_indices` does to the index, and that it leaves the rest alone. -/
theorem updateIndices_cases (h : updateIndices ids m new old valid = some m') :
    m'.base = m.base ∧ m'.stamp = m.stamp ∧
      ((m.index = none ∧ m'.index = none) ∨ ∃ idx idx', m.index = some idx ∧ m'.index = some idx' ∧
        rewritten ids idx old new valid m.stamp = some idx') := by
  unfold updateIndices at h
  split at h
  · rename_i hindex
    cases h
    exact ⟨rfl, rfl, .inl ⟨hindex, hindex⟩⟩
  · rename_i idx hindex
    obtain ⟨idx', hwrite, rfl⟩ := Option.map_eq_some_iff.mp h
    exact ⟨rfl, rfl, .inr ⟨idx, idx', hindex, rfl, hwrite⟩⟩

lemma Sound.currentRow_eq_some_iff (h : m.Sound ids schema) {r : Tuple}
    (hlatest : ∀ d ∈ m.base, d.fact = key → d.valid ≤ valid) (hvalid : valid ≤ v)
    (hsys : m.stamp ≤ s) : currentRow m.base key valid = some r ↔
      r ∈ visibleRows m.base v s ∧ r.take schema.keys = key := by
  rw [h.base.currentRow_eq_some_iff]
  refine and_congr_left fun hkey => ?_
  exact h.base.visibleRows_of_within
    (fun d hd hdf => ⟨hlatest d hd (hdf.trans hkey), h.sys d hd⟩)
    (Int64.le_refl _) (le_maxValidityTs _) hvalid hsys

lemma shows_invisible {base : List Version} {r : Version} (hr : r.valid = valid ∧ r.sys = stamp)
    (hwrite : rewritten ids idx old new valid stamp = some idx')
    (hinvisible : ¬(valid ≤ v ∧ stamp ≤ s)) (hshows : Shows idx base v s) (p : Tuple) :
    p ∈ visibleRows idx'.versions v s ↔
      ∃ row ∈ visibleRows (timeline.write r base) v s, projectMapper idx.mapper row = some p := by
  obtain ⟨between, hbetween, hlast⟩ := Option.bind_eq_some_iff.mp hwrite
  rw [visibleRows_indexWriteOf_of_invisible hinvisible hlast,
    visibleRows_indexWriteOf_of_invisible hinvisible hbetween, hshows p]
  refine exists_congr fun row => and_congr_left fun _ =>
    (Stored.visibleRows_write_of_invisible ?_).symm
  rintro ⟨hvalid, hsys⟩
  refine hinvisible ⟨le_iff_toInt_le.mpr ?_, le_iff_toInt_le.mpr ?_⟩
  · exact hr.1 ▸ hvalid
  · exact hr.2 ▸ hsys

section

variable (h : m.Sound ids schema) (hkey : row.take schema.keys = key)
  (hshape : Shape (currentRow m.base key valid) key row polarity new old)
include h hkey hshape

lemma Sound.take_of_shape : (∀ r, old = some r → r.take schema.keys = key) ∧ ∀ r, new = some r →
      r.take schema.keys = key := by
  have hcurrent : ∀ r, currentRow m.base key valid = some r → r.take schema.keys = key :=
    fun r hr => (h.base.currentRow_eq_some_iff.mp hr).2
  cases hshape with
  | replace =>
    refine ⟨hcurrent, fun r hr => ?_⟩
    cases hr
    exact hkey
  | repeated => exact ⟨fun _ hr => (nomatch hr), fun _ hr => (nomatch hr)⟩
  | retract => exact ⟨hcurrent, fun _ hr => nomatch hr⟩

variable (hwidth : key.length = schema.keys)
  (hlatest : ∀ d ∈ m.base, d.fact = key → d.valid ≤ valid)
include hwidth hlatest

lemma Sound.shows_visible (hidx : m.index = some idx)
    (hindexed : ∀ r ∈ idx.versions, ∀ row : Tuple, row.take schema.keys = key →
      projectMapper idx.mapper row = some r.fact → r.valid ≤ valid)
    (hwrite : rewritten ids idx old new valid m.stamp = some idx')
    (hvalid : valid ≤ v) (hsys : m.stamp ≤ s) (hshows : Shows idx m.base v s) (p : Tuple) :
    p ∈ visibleRows idx'.versions v s ↔ ∃ r ∈ visibleRows
      (timeline.write ⟨ids.baseId, key, valid, m.stamp, polarity, row.drop schema.keys⟩ m.base) v s,
      projectMapper idx.mapper r = some p := by
  set r : Version := ⟨ids.baseId, key, valid, m.stamp, polarity, row.drop schema.keys⟩ with hr
  have hindex := h.index idx hidx
  obtain ⟨hold, hnew⟩ := h.take_of_shape hkey hshape
  have hprojects : ∀ {given : Option Tuple}, (∀ r, given = some r → r.take schema.keys = key) →
      ∀ r ∈ idx.versions, projects idx.mapper given r.fact → r.valid ≤ valid := by
    intro given hgiven r hr hp
    obtain ⟨c, hc, hcp⟩ := Option.bind_eq_some_iff.mp hp
    exact hindexed r hr c (hgiven c hc) hcp
  have hpolarity : polarity ≠ .erase := by
    rintro rfl
    exact nomatch hshape
  have hlogical : r.logicalRow = row := by
    change key ++ row.drop schema.keys = row
    rw [← hkey, take_append_drop]
  have hbase : ∀ d, d ∈ visibleRows (timeline.write r m.base) v s ↔
      (d ∈ visibleRows m.base v s ∧ d.take schema.keys ≠ key) ∨ (polarity = .assert ∧ d = row) := by
    intro d
    have hvisible : timeline.Visible v.toInt s.toInt r :=
      ⟨le_iff_toInt_le.mp hvalid, le_iff_toInt_le.mp hsys⟩
    refine (h.base.visibleRows_write rfl hwidth hvisible hpolarity
      fun d hd hdf => ⟨hlatest d hd hdf, h.sys d hd⟩).trans ?_
    rw [hlogical]
  have hindexrows := fun q => hindex.visibleRows_update (p := q) hvalid hsys (hprojects hold)
    (hprojects hnew) hwrite
  have hcurrent := fun r => h.currentRow_eq_some_iff (r := r) hlatest hvalid hsys
  exact shows_of_shape (· ∈ visibleRows m.base v s) (· ∈ visibleRows (timeline.write r m.base) v s)
    (· ∈ visibleRows idx.versions v s) (· ∈ visibleRows idx'.versions v s)
    (take_eq_of_projectMapper hindex.covers) hshape hkey hcurrent hbase hindexrows hshows p

/-- **The row of a mutation keeps the mirror.** -/
theorem Sound.writeRow (hindexed : ∀ idx, m.index = some idx → ∀ r ∈ idx.versions, ∀ row : Tuple,
      row.take schema.keys = key → projectMapper idx.mapper row = some r.fact → r.valid ≤ valid)
    (hwrite : writeRow ids schema m row polarity new old valid = some m') :
    m'.Sound ids schema := by
  obtain ⟨mid, hupdate, rfl⟩ := Option.map_eq_some_iff.mp hwrite
  obtain ⟨hbase, hstamp, hcases⟩ := updateIndices_cases hupdate
  -- The base version that is put.
  have hput : (mid.putBase (baseVersion ids schema mid row polarity valid)).base =
      timeline.write ⟨ids.baseId, key, valid, m.stamp, polarity, row.drop schema.keys⟩ m.base := by
    rw [putBase, baseVersion, hkey, hstamp, hbase]
  have hstored : ∀ idx', mid.index = some idx' → ∃ idx, m.index = some idx ∧
      rewritten ids idx old new valid m.stamp = some idx' := by
    intro idx' hidx'
    obtain ⟨-, hnone⟩ | ⟨idx, written, hidx, hwritten, hwrite⟩ := hcases
    · exact nomatch hnone.symm.trans hidx'
    · cases hwritten.symm.trans hidx'
      exact ⟨idx, hidx, hwrite⟩
  refine ⟨hput ▸ h.base.write rfl hwidth, ?_, ?_, ?_⟩
  · rw [hput, putBase, hstamp]
    exact forall_mem_write (Int64.le_refl _) h.sys
  · intro idx' hidx'
    obtain ⟨idx, hidx, hwrite⟩ := hstored idx' hidx'
    change IndexStored ids schema mid.stamp idx'
    rw [hstamp]
    exact ((h.index idx hidx).update hwrite).1
  · intro idx' hidx' v s hv hs
    obtain ⟨idx, hidx, hwrite⟩ := hstored idx' hidx'
    have hindex := h.index idx hidx
    obtain ⟨-, hmapper, hcreated⟩ := hindex.update hwrite
    rw [hcreated] at hv hs
    have hshows := h.shows idx hidx v s hv hs
    intro p
    rw [hput, hmapper]
    by_cases hvisible : valid ≤ v ∧ m.stamp ≤ s
    · exact h.shows_visible hkey hshape hwidth hlatest hidx (hindexed idx hidx) hwrite hvisible.1
        hvisible.2 hshows p
    · exact shows_invisible ⟨rfl, rfl⟩ hwrite hvisible hshows p

end

lemma take_carryRow {original : Tuple} {vals : List (Option DataValue)}
    (hwidth : key.length = schema.keys) (h : carryRow key original vals = some row) :
    row.take schema.keys = key := by
  obtain ⟨carried, -, rfl⟩ := Option.map_eq_some_iff.mp h
  rw [← hwidth, take_left]

lemma Sound.mutate {op : RowOp} (h : m.Sound ids schema)
    (hforward : m.Forward schema (.mutate op)) (hstep : m.mutate ids schema op = some m') :
    m'.Sound ids schema := by
  obtain ⟨hlatest, hindexed⟩ := hforward
  cases op with
  | put mustBeAbsent row valid =>
    simp only [Mirror.mutate] at hstep
    split_ifs at hstep with hbad hsame
    · obtain ⟨hlength, -⟩ := not_or.mp hbad
      have hwidth : (row.take schema.keys).length = schema.keys := by
        rw [length_take, not_ne_iff.mp hlength, min_eq_left schema.keys_le]
      exact h.writeRow rfl (.repeated hsame) hwidth hlatest hindexed hstep
    · obtain ⟨hlength, -⟩ := not_or.mp hbad
      have hwidth : (row.take schema.keys).length = schema.keys := by
        rw [length_take, not_ne_iff.mp hlength, min_eq_left schema.keys_le]
      exact h.writeRow rfl .replace hwidth hlatest hindexed hstep
  | update key vals valid =>
    simp only [Mirror.mutate] at hstep
    split_ifs at hstep with hbad
    obtain ⟨hlength, -⟩ := not_or.mp hbad
    obtain ⟨old, hold, hstep⟩ := Option.bind_eq_some_iff.mp hstep
    obtain ⟨row, hrow, hstep⟩ := Option.bind_eq_some_iff.mp hstep
    rw [← hold] at hstep
    exact h.writeRow (take_carryRow (not_ne_iff.mp hlength) hrow) .replace (not_ne_iff.mp hlength)
      hlatest
      hindexed hstep
  | rm mustBePresent key valid =>
    simp only [Mirror.mutate] at hstep
    split_ifs at hstep with hbad
    obtain ⟨hlength, -⟩ := not_or.mp hbad
    have hwidth := not_ne_iff.mp hlength
    exact h.writeRow (take_of_length_le hwidth.le) (.retract rfl) hwidth hlatest hindexed hstep

/-! ## Backfill -/

lemma IndexStored.backfill {rows : List Tuple} (h : IndexStored ids schema stamp idx)
    (hvalid : ∀ r ∈ idx.versions, r.valid ≤ stamp)
    (hfold : rows.foldlM (fun idx row => plainIndexWrite ids idx row .assert stamp stamp) idx =
      some idx') :
    IndexStored ids schema stamp idx' ∧ idx'.mapper = idx.mapper ∧ idx'.created = idx.created ∧
      ∀ v s, stamp ≤ v → stamp ≤ s → ∀ p, p ∈ visibleRows idx'.versions v s ↔
        p ∈ visibleRows idx.versions v s ∨ ∃ row ∈ rows, projectMapper idx.mapper row = some p := by
  induction rows generalizing idx with
  | nil =>
    cases hfold
    exact ⟨h, rfl, rfl, fun v s _ _ p => by simp⟩
  | cons row rows ih =>
    obtain ⟨mid, hmid, hrest⟩ := Option.bind_eq_some_iff.mp hfold
    have hwrite : Mirror.indexWriteOf ids idx (some row) .assert stamp stamp = some mid := hmid
    obtain ⟨hstored, hmapper, hcreated, hversions⟩ := h.indexWriteOf hwrite
    have hmidvalid : ∀ r ∈ mid.versions, r.valid ≤ stamp := by
      intro r hr
      obtain hr | heq := hversions r hr
      · exact hvalid r hr
      · exact heq ▸ Int64.le_refl _
    obtain ⟨hstored', hmapper', hcreated', hvisible⟩ := ih hstored hmidvalid hrest
    refine ⟨hstored', hmapper'.trans hmapper, hcreated'.trans hcreated, fun v s hv hs p => ?_⟩
    rw [hvisible v s hv hs p, hmapper,
      h.visibleRows_indexWriteOf hv hs (by decide) (fun r hr _ => hvalid r hr) hwrite]
    have hprojects : projects idx.mapper (some row) p ↔ projectMapper idx.mapper row = some p :=
      Iff.rfl
    rw [hprojects]
    by_cases hrow : projectMapper idx.mapper row = some p <;> simp [hrow]

lemma Sound.createIndex {cols : List ℕ} {idx : PlainIndex} (h : m.Sound ids schema)
    (hcols : ∀ c ∈ cols, c < schema.arity) (hforward : m.Forward schema (.createIndex cols))
    (hbackfill : m.backfill ids (mapperOf schema cols) = some idx) :
    Sound ids schema { m with index := some idx, stage := .indexed } := by
  have hempty : IndexStored ids schema m.stamp ⟨mapperOf schema cols, m.stamp, []⟩ :=
    ⟨.nil, fun _ hr => absurd hr not_mem_nil, fun _ hr => absurd hr not_mem_nil,
      covers_mapperOf hcols⟩
  obtain ⟨hstored, hmapper, hcreated, hvisible⟩ := hempty.backfill
    (fun _ hr => absurd hr not_mem_nil) hbackfill
  refine ⟨h.base, h.sys, ?_, ?_⟩
  · rintro _ ⟨⟩
    exact hstored
  · rintro _ ⟨⟩ v s hv hs p
    rw [hcreated] at hv hs
    rw [hvisible v s hv hs p, hmapper]
    have hnothing : p ∉ visibleRows [] v s := fun hp => nomatch hp
    rw [or_iff_right hnothing]
    -- No base version is later than the stamp, so the rows at the latest instant are those now.
    refine exists_congr fun row => and_congr_left fun _ => ?_
    exact h.base.visibleRows_of_within (fun d hd _ => ⟨hforward d hd, h.sys d hd⟩)
      (le_maxValidityTs _) (le_maxValidityTs _) hv hs

/-! ## Runs -/

/-- **A step without backdated writes keeps the mirror.** -/
theorem Sound.step {action : Step} (h : m.Sound ids schema) (hforward : m.Forward schema action)
    (hstep : m.step ids schema action = some m') : m'.Sound ids schema := by
  cases action <;> simp only [Mirror.step] at hstep
  case begin stamp =>
    split_ifs at hstep with hlater
    cases hstep
    have hle : m.stamp ≤ stamp := Int64.le_of_lt hlater.1
    refine ⟨h.base, fun r hr => Int64.le_trans (h.sys r hr) hle, fun idx hidx => ?_, h.shows⟩
    have hindex := h.index idx hidx
    exact ⟨hindex.stored, hindex.flat, fun r hr => Int64.le_trans (hindex.sys r hr) hle,
      hindex.covers⟩
  case mutate op =>
    split_ifs at hstep
    exact h.mutate hforward hstep
  case createIndex cols =>
    split_ifs at hstep with hready
    obtain ⟨idx, hbackfill, rfl⟩ := Option.map_eq_some_iff.mp hstep
    exact h.createIndex hready.2.2.2 hforward hbackfill

lemma sound_empty (stamp : Int64) : (empty stamp).Sound ids schema where
  base := .nil
  sys := fun _ hr => absurd hr not_mem_nil
  index := fun _ hidx => nomatch hidx
  shows := fun _ hidx => nomatch hidx

/-- **A plain index mirrors its base relation.**  In every run in which no version of a written key,
or of its index rows, is later than the write, and in which the index is created when no version is
later than its creation, the rows of the index visible as of a pair of times not before the creation
are exactly the projections of the base rows visible as of that pair. -/
theorem plain_index_mirrors {start : Int64} {actions : List Step}
    (run : StepRun (step ids schema) (Forward schema) (empty start) actions m)
    {idx : PlainIndex} (hidx : m.index = some idx) {v s : Int64} (hv : idx.created ≤ v)
    (hs : idx.created ≤ s) (p : Tuple) :
    p ∈ visibleRows idx.versions v s ↔
      ∃ row ∈ visibleRows m.base v s, projectMapper idx.mapper row = some p := by
  have h : m.Sound ids schema :=
    run.invariant (sound_empty start) fun hsound hforward hstep => hsound.step hforward hstep
  exact h.shows idx hidx v s hv hs p

/-! ## A backdated write -/

/-- A base relation of a key and a value, and its index. -/
def pairIds : MirrorIds := ⟨⟨3, by decide⟩, ⟨4, by decide⟩⟩

def pairSchema : Schema := ⟨1, 2, by decide⟩

/-- The rows of one key. -/
def pairRow (value : DataValue) : Tuple := [.null, value]

/-- The index on the value is created, and a row is put at an instant. -/
def putIndexed : List Step :=
  [.begin 10, .createIndex [1], .begin 20, .mutate (.put false (pairRow (.bool true)) 100)]

/-- The rows of the base and of the index as of a pair of times. -/
def viewAt (m : Mirror) (valid sys : Int64) : Option (List Tuple × List Tuple) :=
  m.index.map fun idx => (visibleRows m.base valid sys, visibleRows idx.versions valid sys)

/-- Another row is put at an instant before: after both instants the base has the first row, and the
index has both. -/
theorem plain_index_backdated : (runSteps (step pairIds pairSchema) (empty 0)
      (putIndexed ++ [.begin 30, .mutate (.put false (pairRow (.bool false)) 50)])).bind
        (fun m => viewAt m 150 40) =
      some ([[.null, .bool true]], [[.bool false, .null], [.bool true, .null]]) := by
  decide +kernel

/-- The index shows the row that is put at the later instant. -/
theorem plain_index_mirrors_put : ∃ actions m idx,
    StepRun (step pairIds pairSchema) (Forward pairSchema) (empty 0) actions m ∧
      m.index = some idx ∧ pairRow (.bool true) ∈ visibleRows m.base 150 40 ∧
      ([.bool true, .null] ∈ visibleRows idx.versions 150 40 ↔
        ∃ row ∈ visibleRows m.base 150 40, projectMapper idx.mapper row =
          some [.bool true, .null]) := by
  have hbegin := (@StepRun.nil _ _ (step pairIds pairSchema) (Forward pairSchema)
    (empty 0)).extend [.begin 10] (by simp [Forward]) rfl
  have hcreate := (hbegin.snoc (a := .createIndex [1])
    (fun _ hr => absurd hr not_mem_nil) rfl).extend [.begin 20] (by simp [Forward]) rfl
  have hput := hcreate.snoc (a := .mutate (.put false (pairRow (.bool true)) 100)) (by
    refine ⟨fun _ hr => absurd hr not_mem_nil, fun idx hidx r hr => ?_⟩
    cases hidx
    exact absurd hr not_mem_nil) rfl
  refine ⟨_, _, _, hput, rfl, ?_, plain_index_mirrors hput rfl ?_ ?_ _⟩
  · decide +kernel
  · decide +kernel
  · decide +kernel

end Mirror

end Kyzo

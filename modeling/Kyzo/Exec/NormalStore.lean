import Kyzo.Exec.NormalLevel

/-!
# Normal epoch stores refine a map with a delta

The levels of a normal store hold, for every row, the limiter flag of the last out-store that
contained it, and the newest level's admitted rows are the rows of the last out-store that no
earlier one contained.  Every scan is a filter of one ascending list of rows.
-/

namespace Kyzo

open List NormalLevel LevelStack

/-! ## Out-stores as lists of entries -/

namespace RegularTempStore

variable (s : RegularTempStore)

/-- The rows of an out-store with their flags, as the barrier walks them. -/
def entries : List (Bytes × LimiterSkip) :=
  s.inner.toList.map fun e => (e.1.bytes, e.2)

lemma keysAscend_entries : KeysAscend s.entries :=
  pairwise_map.mpr s.inner.ordered_keys_toList

lemma exists_bare_of_mem_entries {s : RegularTempStore} {e : Bytes × LimiterSkip}
    (he : e ∈ s.entries) : ∃ t : Tuple, t.bare = e.1 := by
  obtain ⟨⟨k, skip⟩, -, rfl⟩ := mem_map.mp he
  exact k.minted

lemma lookupKey_entries (t : Tuple) :
    lookupKey s.entries t.bare = s.inner[OwnBareKey.encode t]? := by
  apply Option.ext
  intro skip
  rw [lookupKey_eq_some s.keysAscend_entries, ← Std.TreeMap.mem_toList_iff_getElem?_eq_some,
    entries, mem_map]
  constructor
  · rintro ⟨⟨k, skip'⟩, hmem, heq⟩
    obtain ⟨hk, rfl⟩ := Prod.mk.inj heq
    have hkey : k = OwnBareKey.encode t := OwnBareKey.ext_bytes hk
    rwa [hkey] at hmem
  · intro hmem
    exact ⟨_, hmem, rfl⟩

end RegularTempStore

/-! ## What the levels hold -/

/-- Normal levels hold the limiter flags `total`, in tight arenas. -/
structure HoldsFlags (levels : List NormalLevel) (total : Bytes → Option LimiterSkip) : Prop where
  holds : Holds rows RowFlags.skip levels total
  tight : ∀ l ∈ levels, l.Tight

variable {levels : List NormalLevel} {total : Bytes → Option LimiterSkip}

namespace HoldsFlags

lemma concat (h : HoldsFlags levels total) {l : NormalLevel} (hasc : KeysAscend l.rows)
    (htight : l.Tight) :
    HoldsFlags (levels ++ [l]) fun k => ((lookupKey l.rows k).map RowFlags.skip).or (total k) where
  holds := h.holds.concat hasc
  tight := forall_mem_append.mpr ⟨h.tight, forall_mem_singleton.mpr htight⟩

variable {s : LevelStack NormalLevel} (h : HoldsFlags s.iter total)
include h

lemma dropConsumedEmptyDelta :
    HoldsFlags (s.dropConsumedEmptyDelta NormalLevel.isEmpty).iter total where
  holds := holds_dropConsumedEmptyDelta (fun l => l.isEmpty_iff.mp) h.holds
  tight := by
    intro l hl
    rcases s.iter_dropConsumedEmptyDelta NormalLevel.isEmpty with heq | ⟨top, -, heq⟩
    · exact h.tight l (heq ▸ hl)
    · exact h.tight l (heq ▸ mem_append_left _ hl)

lemma compactNormal : HoldsFlags (compactNormal s).2.iter total := by
  refine compactWhile_invariant (P := fun levels => HoldsFlags levels total) ?_ h
  intro below older newer merged hmerged hbelow
  have happ := compactRows_spec older newer (older.len + newer.len) 0 0 le_rfl
    tight_empty
  rcases happ with ⟨out, hout, hrows, htight⟩ | ⟨e, he, -⟩
  · cases hmerged.symm.trans hout
    have hskip : ∀ flags, (settle flags).skip = flags.skip := fun _ => rfl
    exact ⟨hbelow.holds.merge hskip hrows, forall_mem_append.mpr
      ⟨(forall_mem_append.mp hbelow.tight).1, forall_mem_singleton.mpr htight⟩⟩
  · cases hmerged.symm.trans he

end HoldsFlags

/-! ## Sealing an epoch -/

/-- The flags a derived row is sealed with: admitted when no level holds it, refreshed when its
limiter flag moved. -/
def sealedFlags (skip : LimiterSkip) : Option LimiterSkip → Option RowFlags
  | none => some ⟨skip, .admitted⟩
  | some old => if old ≠ skip then some ⟨skip, .refresh⟩ else none

/-- The rows an epoch seals over the flags held so far. -/
def sealedRows (total : Bytes → Option LimiterSkip) (entries : List (Bytes × LimiterSkip)) :
    List (Bytes × RowFlags) :=
  entries.filterMap fun e => (sealedFlags e.2 (total e.1)).map fun flags => (e.1, flags)

lemma sealedRows_cons (total : Bytes → Option LimiterSkip) (e : Bytes × LimiterSkip)
    (entries : List (Bytes × LimiterSkip)) :
    sealedRows total (e :: entries) =
      match sealedFlags e.2 (total e.1) with
      | none => sealedRows total entries
      | some flags => (e.1, flags) :: sealedRows total entries := by
  rw [sealedRows, filterMap_cons]
  cases sealedFlags e.2 (total e.1) <;> rfl

variable {entries : List (Bytes × LimiterSkip)}

section

variable (total)

include total

variable (h : KeysAscend entries)
include h

lemma keysAscend_sealedRows : KeysAscend (sealedRows total entries) :=
  h.filterMap fun k skip => sealedFlags skip (total k)

lemma lookupKey_sealedRows (k : Bytes) : lookupKey (sealedRows total entries) k =
      (lookupKey entries k).bind fun skip => sealedFlags skip (total k) :=
  lookupKey_filterMap h (fun k skip => sealedFlags skip (total k)) k

lemma lookupKey_sealedRows_or (k : Bytes) :
    ((lookupKey (sealedRows total entries) k).map RowFlags.skip).or (total k) =
      (lookupKey entries k).or (total k) := by
  rw [lookupKey_sealedRows total h]
  rcases lookupKey entries k with _ | skip
  · rfl
  rcases total k with _ | old
  · rfl
  · by_cases hold : old = skip
    · simp [sealedFlags, hold]
    · simp [sealedFlags, hold]

omit h

lemma sealedRows_filter_admitted (entries : List (Bytes × LimiterSkip)) :
    ((sealedRows total entries).filter fun e => !e.2.refresh.hidesFromDelta).map
        (fun e => (e.1, e.2.skip)) =
      entries.filter fun e => (total e.1).isNone := by
  induction entries with
  | nil => rfl
  | cons e entries ih =>
    rw [sealedRows_cons]
    rcases htotal : total e.1 with _ | old
    · rw [sealedFlags, filter_cons_of_pos (by rfl), map_cons, ih,
        filter_cons_of_pos (by simp [htotal])]
    · rw [filter_cons_of_neg (by simp [htotal]), ← ih]
      by_cases hold : old = e.2
      · simp [sealedFlags, hold]
      · simp [sealedFlags, hold, FlagRefresh.hidesFromDelta]

end

variable (h : HoldsFlags levels total)
include h

lemma findFlags_eq (k : Bytes) : findFlags levels k = newest (levels.map rows) k :=
  findSome?_eq_newest fun l hl => find_spec (h.holds.ascend l hl) k

/-- **The sealing loop** appends the sealed rows, unless they outgrow the arena. -/
theorem sealRows_appends (entries : List (OwnBareKey × LimiterSkip)) {level : NormalLevel}
    (htight : level.Tight) (admitted : ℕ) :
    Appends ((sealRows levels entries level admitted).map Prod.fst) level
      (sealedRows total (entries.map fun e => (e.1.bytes, e.2))) := by
  induction entries generalizing level admitted with
  | nil => exact .nil htight
  | cons e entries ih =>
    obtain ⟨row, skip⟩ := e
    have hfind := findFlags_eq h row.bytes
    have htotal := h.holds.newest_eq row.bytes
    rw [map_cons, sealedRows_cons, sealRows]
    rcases hnew : newest (levels.map rows) row.bytes with _ | old
    · rw [hnew] at hfind htotal
      simp only [hfind, ← htotal, Option.map_none, sealedFlags, map_bind_eq]
      exact .cons htight fun l' _ hl' => ih hl' (admitted + 1)
    · rw [hnew] at hfind htotal
      simp only [hfind, ← htotal, Option.map_some, sealedFlags]
      by_cases hold : old.skip ≠ skip
      · simp only [if_pos hold, map_bind_eq]
        exact .cons htight fun l' _ hl' => ih hl' admitted
      · simp only [if_neg hold]
        exact ih htight admitted

lemma sealRows_admitted {entries : List (OwnBareKey × LimiterSkip)} {level out : NormalLevel}
    {admitted n : ℕ} (hrun : sealRows levels entries level admitted = .ok (out, n)) :
    n = admitted + entries.countP fun e => (total e.1.bytes).isNone := by
  induction entries generalizing level admitted with
  | nil =>
    cases hrun
    rfl
  | cons e entries ih =>
    obtain ⟨row, skip⟩ := e
    have hfind := findFlags_eq h row.bytes
    have htotal := h.holds.newest_eq row.bytes
    rw [sealRows] at hrun
    rcases hnew : newest (levels.map rows) row.bytes with _ | old
    · rw [hnew] at hfind htotal
      simp only [hfind] at hrun
      obtain ⟨l', -, hrest⟩ := bind_ok hrun
      rw [ih hrest, countP_cons_of_pos (by simp [← htotal])]
      omega
    · rw [hnew] at hfind htotal
      rw [countP_cons_of_neg (by simp [← htotal])]
      simp only [hfind] at hrun
      split at hrun
      · obtain ⟨l', -, hrest⟩ := bind_ok hrun
        exact ih hrest
      · exact ih hrun

end Kyzo

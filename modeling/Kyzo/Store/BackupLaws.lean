import Kyzo.Store.Backup

/-!
# What a restore brings back

A whole dump restores to the pairs it was made from.  A dump that was cut is refused, unless the cut
lies between two pairs or inside the length of a key: there the reader takes the end of the file for
the end of the dump.
-/

namespace Kyzo

open List FormatVersion ByteMap

/-! ## Fields -/

@[simp] lemma length_lenPrefixed (b : Bytes) : (lenPrefixed b).length = 8 + b.length := by
  rw [lenPrefixed, length_append, length_u64Bytes]

@[simp] lemma length_pairBytes (e : Bytes × Bytes) :
    (pairBytes e).length = 16 + e.1.length + e.2.length := by
  rw [pairBytes, length_append, length_lenPrefixed, length_lenPrefixed]
  omega

variable {b : Bytes}

lemma beNat_take_lenPrefixed (hb : b.length < 2 ^ 64) (rest : Bytes) :
    beNat ((lenPrefixed b ++ rest).take 8) = b.length := by
  rw [lenPrefixed, append_assoc,
    take_left' (length_u64Bytes (UInt64.ofNat b.length)), u64Bytes, beNat_beBytes,
    UInt64.toNat_ofNat', Nat.mod_eq_of_lt hb]
  exact Nat.mod_eq_of_lt hb

lemma drop_lenPrefixed (b rest : Bytes) : (lenPrefixed b ++ rest).drop 8 = b ++ rest := by
  rw [lenPrefixed, append_assoc, drop_left' (length_u64Bytes _)]

variable {r : Bytes}

lemma readLenPrefixed_short (h : r.length < 8) : readLenPrefixed r = .ok none := by
  rw [readLenPrefixed, if_pos h]

lemma readLenPrefixed_append (hb : b.length < 2 ^ 64) (rest : Bytes) :
    readLenPrefixed (lenPrefixed b ++ rest) = .ok (some (b, rest)) := by
  have hlong : ¬(lenPrefixed b ++ rest).length < 8 := by
    rw [length_append, length_lenPrefixed]
    omega
  have hfull : ¬(b ++ rest).length < b.length := by
    rw [length_append]
    omega
  simp only [readLenPrefixed, if_neg hlong, beNat_take_lenPrefixed hb, drop_lenPrefixed,
    if_neg hfull, take_left, drop_left]

variable {n : ℕ}

lemma readLenPrefixed_cut (hb : b.length < 2 ^ 64) (rest : Bytes) (hn : 8 ≤ n)
    (hcut : n < 8 + b.length) :
    readLenPrefixed ((lenPrefixed b ++ rest).take n) = .error .shortField := by
  have hlen : ((lenPrefixed b ++ rest).take n).length = n := by
    rw [length_take, length_append, length_lenPrefixed]
    omega
  have hlong : ¬((lenPrefixed b ++ rest).take n).length < 8 := by omega
  have hshort : (((lenPrefixed b ++ rest).take n).drop 8).length < b.length := by
    rw [length_drop]
    omega
  have hword : beNat (((lenPrefixed b ++ rest).take n).take 8) = b.length := by
    rw [take_take, Nat.min_eq_left hn, beNat_take_lenPrefixed hb]
  simp only [readLenPrefixed, if_neg hlong, hword, if_pos hshort]

lemma take_append_of_length_le {rest : Bytes} (hn : b.length ≤ n) :
    (b ++ rest).take n = b ++ rest.take (n - b.length) := by
  rw [take_append, take_of_length_le hn]

/-! ## Pairs -/

variable {e : Bytes × Bytes}

lemma readPair_append (hk : e.1.length < 2 ^ 64) (hv : e.2.length < 2 ^ 64)
    (rest : Bytes) : readPair (pairBytes e ++ rest) = .ok (some (e, rest)) := by
  rw [readPair, pairBytes, append_assoc, readLenPrefixed_append hk]
  change (readLenPrefixed (lenPrefixed e.2 ++ rest) >>= _) = _
  rw [readLenPrefixed_append hv]
  rfl

lemma readPair_short (h : r.length < 8) : readPair r = .ok none := by
  rw [readPair, readLenPrefixed_short h]
  rfl

lemma readPair_cut (hk : e.1.length < 2 ^ 64) (hv : e.2.length < 2 ^ 64)
    (rest : Bytes) (hn : 8 ≤ n) (hcut : n < (pairBytes e).length) :
    ∃ err, readPair ((pairBytes e ++ rest).take n) = .error err := by
  rw [length_pairBytes] at hcut
  rw [readPair, pairBytes, append_assoc]
  by_cases hkey : n < 8 + e.1.length
  · refine ⟨.shortField, ?_⟩
    rw [readLenPrefixed_cut hk _ hn hkey]
    rfl
  -- The key is whole, and the cut is in the value.
  have hkeyLen : (lenPrefixed e.1).length ≤ n := by
    rw [length_lenPrefixed]
    omega
  rw [take_append_of_length_le hkeyLen, length_lenPrefixed, readLenPrefixed_append hk]
  change ∃ err, (readLenPrefixed ((lenPrefixed e.2 ++ rest).take (n - (8 + e.1.length))) >>= _) = _
  by_cases hvalue : n - (8 + e.1.length) < 8
  · refine ⟨.keyWithoutValue, ?_⟩
    rw [readLenPrefixed_short (by rw [length_take]; omega)]
    rfl
  · refine ⟨.shortField, ?_⟩
    rw [readLenPrefixed_cut hv _ (by omega) (by omega)]
    rfl

/-- Where the pairs of a dump lie behind its header. -/
def pairOffset (entries : List (Bytes × Bytes)) (i : ℕ) : ℕ :=
  ((entries.take i).flatMap pairBytes).length

/-- A cut between two pairs, or inside the length of a key. -/
def CutsCleanly (entries : List (Bytes × Bytes)) (n : ℕ) : Prop :=
  ∃ i < entries.length, pairOffset entries i ≤ n ∧ n < pairOffset entries i + 8

lemma pairOffset_cons (e : Bytes × Bytes) (entries : List (Bytes × Bytes)) (i : ℕ) :
    pairOffset (e :: entries) (i + 1) = (pairBytes e).length + pairOffset entries i := by
  rw [pairOffset, take_succ_cons, flatMap_cons, length_append, pairOffset]

variable {entries : List (Bytes × Bytes)}

lemma cutsCleanly_cons : CutsCleanly (e :: entries) n ↔
      n < 8 ∨ (pairBytes e).length ≤ n ∧ CutsCleanly entries (n - (pairBytes e).length) := by
  constructor
  · rintro ⟨i, hi, hlow, hhigh⟩
    rcases i with _ | i
    · exact .inl (by simpa [pairOffset] using hhigh)
    · rw [pairOffset_cons] at hlow hhigh
      exact .inr ⟨by omega, i, by simpa using hi, by omega, by omega⟩
  · rintro (hn | ⟨hlen, i, hi, hlow, hhigh⟩)
    · exact ⟨0, by simp, by simp [pairOffset], by simpa [pairOffset] using hn⟩
    · refine ⟨i + 1, by simpa using hi, ?_, ?_⟩
      · rw [pairOffset_cons]
        omega
      · rw [pairOffset_cons]
        omega

lemma readPairs_of_some {rest : Bytes} (h : readPair r = .ok (some (e, rest))) :
    readPairs r = (e :: (readPairs rest).1, (readPairs rest).2) := by
  rw [readPairs]
  split
  · next heq => cases h.symm.trans heq
  · next heq => cases h.symm.trans heq
  · next heq =>
    cases h.symm.trans heq
    rfl

lemma readPairs_of_none (h : readPair r = .ok none) : readPairs r = ([], none) := by
  rw [readPairs]
  split
  · next heq => cases h.symm.trans heq
  · rfl
  · next heq => cases h.symm.trans heq

lemma readPairs_of_error {err : RestoreError} (h : readPair r = .error err) :
    readPairs r = ([], some err) := by
  rw [readPairs]
  split
  · next heq =>
    cases h.symm.trans heq
    rfl
  · next heq => cases h.symm.trans heq
  · next heq => cases h.symm.trans heq

section

variable (hfits : ∀ e ∈ entries, e.1.length < 2 ^ 64 ∧ e.2.length < 2 ^ 64)
include hfits

lemma readPairs_flatMap : readPairs (entries.flatMap pairBytes) = (entries, none) := by
  induction entries with
  | nil => exact readPairs_of_none (readPair_short (by simp))
  | cons e entries ih =>
    obtain ⟨⟨hk, hv⟩, htail⟩ := forall_mem_cons.mp hfits
    rw [flatMap_cons, readPairs_of_some (readPair_append hk hv _), ih htail]

/-- **Cut pairs**: the reader sees the end of the dump exactly at a clean cut. -/
theorem readPairs_take (hcut : n < (entries.flatMap pairBytes).length) :
    (readPairs ((entries.flatMap pairBytes).take n)).2 = none ↔ CutsCleanly entries n := by
  induction entries generalizing n with
  | nil => exact absurd hcut (Nat.not_lt_zero n)
  | cons e entries ih =>
    obtain ⟨⟨hk, hv⟩, htail⟩ := forall_mem_cons.mp hfits
    rw [cutsCleanly_cons]
    rw [flatMap_cons] at hcut ⊢
    by_cases hshort : n < 8
    · rw [readPairs_of_none (readPair_short (by rw [length_take]; omega))]
      exact iff_of_true rfl (.inl hshort)
    by_cases hin : n < (pairBytes e).length
    · obtain ⟨err, herr⟩ := readPair_cut hk hv (entries.flatMap pairBytes) (by omega) hin
      rw [readPairs_of_error herr]
      refine iff_of_false (fun h => nomatch h) ?_
      rintro (h | ⟨h, -⟩)
      · exact hshort h
      · omega
    · rw [length_append] at hcut
      rw [take_append_of_length_le (by omega), readPairs_of_some (readPair_append hk hv _)]
      refine (ih htail (by omega)).trans ?_
      constructor
      · exact fun h => .inr ⟨by omega, h⟩
      · rintro (h | ⟨-, h⟩)
        · exact absurd h hshort
        · exact h

end

/-! ## The header -/

lemma length_dumpHeader (floor : Int64) : (dumpHeader floor).length = 25 := by
  rfl

lemma parse_current : parse current.asBytes = .ok current := by
  decide +kernel

lemma readDumpHeader_append (floor : Int64) (rest : Bytes) :
    readDumpHeader (dumpHeader floor ++ rest) = .ok (floor, rest) := by
  have hmagic : dumpMagic.length = 8 := rfl
  have hfloor : ∀ r : Bytes, beNat ((u64Bytes floor.toUInt64 ++ r).take 8) =
      floor.toUInt64.toNat := by
    intro r
    rw [take_left' (length_u64Bytes _), u64Bytes, beNat_beBytes]
    exact Nat.mod_eq_of_lt (UInt64.toNat_lt _)
  rw [readDumpHeader, dumpHeader, append_assoc, append_assoc,
    drop_left' hmagic,
    readLenPrefixed_append (by decide)]
  simp only [bind, Except.bind, parse_current]
  rw [hfloor, UInt64.ofNat_toNat]
  rfl

lemma readDumpHeader_cut (floor : Int64) (rest : Bytes) (hn : n < 25) :
    ∃ err, readDumpHeader ((dumpHeader floor ++ rest).take n) = .error err := by
  have hlen : ((dumpHeader floor ++ rest).take n).length = n := by
    rw [length_take, length_append, length_dumpHeader]
    omega
  by_cases hmagicCut : n < 8
  · exact ⟨.unexpectedEof, by rw [readDumpHeader, if_pos (by omega)]⟩
  have hmagicLen : dumpMagic.length = 8 := rfl
  have hmagic : dumpMagic.length ≤ n := by omega
  rw [readDumpHeader, if_neg (by omega), dumpHeader, append_assoc, append_assoc,
    take_append_of_length_le hmagic, take_left' hmagicLen, if_neg (not_not.mpr rfl),
    drop_left' hmagicLen, hmagicLen]
  by_cases hversionCut : n - 8 < 8
  · refine ⟨.missingVersion, ?_⟩
    rw [readLenPrefixed_short (by rw [length_take]; omega)]
    rfl
  have hversion : current.asBytes.length = 1 := by decide
  by_cases hfieldCut : n - 8 < 8 + current.asBytes.length
  · refine ⟨.shortField, ?_⟩
    rw [readLenPrefixed_cut (by decide) _ (by omega) hfieldCut]
    rfl
  refine ⟨.missingFloor, ?_⟩
  rw [take_append_of_length_le (by rw [length_lenPrefixed]; omega),
    readLenPrefixed_append (by decide)]
  simp only [bind, Except.bind, parse_current]
  rw [if_neg (not_not.mpr rfl), if_pos]
  rw [length_take, length_lenPrefixed]
  omega

/-! ## Restoring into an empty store -/

lemma foldl_insert_of_ascending {m : ByteMap}
    (h : (m.entries ++ entries).Pairwise fun a b => compare a.1 b.1 = .lt) :
    (entries.foldl ByteMap.insert m).entries = m.entries ++ entries := by
  induction entries generalizing m with
  | nil => rw [foldl_nil, append_nil]
  | cons e entries ih =>
    have hlt : ∀ x ∈ m.entries, compare x.1 e.1 = .lt := fun x hx =>
      (pairwise_append.mp h).2.2 x hx e (.head _)
    have hinsert : (m.insert e).entries = m.entries ++ [e] := by
      have hbelow : m.entries.filter (fun x => compare x.1 e.1 = .lt) = m.entries :=
        filter_eq_self.mpr fun x hx => decide_eq_true (hlt x hx)
      have habove : m.entries.filter (fun x => compare x.1 e.1 = .gt) = [] :=
        filter_eq_nil_iff.mpr fun x hx => by simp [hlt x hx]
      simp [ByteMap.insert, hbelow, habove]
    rw [foldl_cons, ih, hinsert, append_assoc, singleton_append]
    rwa [hinsert, append_assoc]

lemma dumpPairs_eq_ok {γ : Type} {kinds : List (RelationId × KeyspaceKind)} {floor : Int64}
    {out : Bytes} (h : dumpPairs (γ := γ) kinds floor entries = .ok out) :
    out = entries.flatMap pairBytes ∧ ∀ e ∈ entries, (factRelation kinds e.1).isSome = true →
      ∃ stamp, systemStampOfKey e.1 = .ok stamp ∧ stamp ≤ floor := by
  induction entries generalizing out with
  | nil =>
    cases h
    exact ⟨rfl, by simp⟩
  | cons e entries ih =>
    obtain ⟨_, hverify, h⟩ := bind_ok h
    obtain ⟨out', hout', h⟩ := bind_ok h
    cases h
    obtain ⟨rfl, hstamps⟩ := ih hout'
    refine ⟨rfl, forall_mem_cons.mpr ⟨fun hsome => ?_, hstamps⟩⟩
    obtain ⟨id, hfact⟩ := Option.isSome_iff_exists.mp hsome
    simp only [verifyFact, hfact] at hverify
    obtain ⟨stamp, hstamp, hle⟩ := bind_ok hverify
    refine ⟨stamp, mapError_eq_ok.mp hstamp, ?_⟩
    split_ifs at hle with hgt
    exact Int64.not_lt.mp hgt

variable {target : Storage}

variable (htarget : target.map.entries = [])
include htarget

lemma restoreStorage_append (floor : Int64) (rest : Bytes) :
    restoreStorage target (dumpHeader floor ++ rest) =
      batchPut (raiseClockFloor target floor) (readPairs rest) := by
  rw [restoreStorage, if_neg (not_not.mpr htarget), readDumpHeader_append]

lemma batchPut_fst (data : List (Bytes × Bytes) × Option RestoreError) :
    (batchPut target data).1 = match data.2 with | none => .ok () | some e => .error e := by
  obtain ⟨pairs, _ | e⟩ := data
  · simp [batchPut, htarget]
  · simp [batchPut, htarget]

lemma batchPut_whole {floor : Int64} (m : ByteMap) :
    batchPut (raiseClockFloor target floor) (m.entries, none) =
      (.ok (), { raiseClockFloor target floor with map := m }) := by
  have hmap : m.entries.foldl insert target.map = m := by
    have hentries := foldl_insert_of_ascending (show
      (target.map.entries ++ m.entries).Pairwise _ by rw [htarget]; exact m.ascending)
    rw [htarget] at hentries
    exact ext hentries
  have hmap' : (raiseClockFloor target floor).map = target.map := rfl
  simp [batchPut, hmap', htarget, hmap]

omit htarget

lemma le_raiseClockFloor (db : Storage) (floor : Int64) :
    floor ≤ (raiseClockFloor db floor).clockFloor := by
  rw [raiseClockFloor]
  split_ifs with h
  · exact Int64.le_refl floor
  · exact Int64.not_lt.mp h

/-- **A dump restores, and a cut dump is refused unless it is cut cleanly.**  Restoring the whole
dump of a store into an empty store succeeds with the same pairs and a clock floor no fact stamp of
the dump exceeds.  Restoring a proper prefix fails exactly if the cut is neither between two pairs
nor inside the length of a key. -/
theorem dump_restore_iff {γ : Type}
    (listRelations : ByteMap → Except γ (List (RelationId × KeyspaceKind))) {db target : Storage}
    {bytes : Bytes} (hfits : db.Fits) (hdump : dumpStorage listRelations db = .ok bytes)
    (htarget : target.map.entries = []) :
    (∃ restored kinds, restoreStorage target bytes = (.ok (), restored) ∧ restored.map = db.map ∧
      listRelations db.map = .ok kinds ∧
      ∀ e ∈ db.map.entries, (factRelation kinds e.1).isSome = true →
        ∃ stamp, systemStampOfKey e.1 = .ok stamp ∧ stamp ≤ restored.clockFloor) ∧
    ∀ n < bytes.length, (∃ err, (restoreStorage target (bytes.take n)).1 = .error err) ↔
      ¬(25 ≤ n ∧ CutsCleanly db.map.entries (n - 25)) := by
  obtain ⟨kinds, hkinds, hdump⟩ := bind_ok hdump
  obtain ⟨pairs, hpairs, hdump⟩ := bind_ok hdump
  cases hdump
  obtain ⟨rfl, hstamps⟩ := dumpPairs_eq_ok hpairs
  constructor
  · refine ⟨{ raiseClockFloor target db.clockFloor with map := db.map }, kinds, ?_, rfl,
      mapError_eq_ok.mp hkinds, fun e he hfact => ?_⟩
    · rw [restoreStorage_append htarget, readPairs_flatMap hfits, batchPut_whole htarget]
    · obtain ⟨stamp, hstamp, hle⟩ := hstamps e he hfact
      exact ⟨stamp, hstamp, Int64.le_trans hle (le_raiseClockFloor target db.clockFloor)⟩
  · intro n hn
    rw [length_append, length_dumpHeader] at hn
    by_cases hheader : n < 25
    · obtain ⟨err, herr⟩ := readDumpHeader_cut db.clockFloor (db.map.entries.flatMap pairBytes)
        hheader
      refine iff_of_true ⟨err, ?_⟩ (by omega)
      rw [restoreStorage, if_neg (not_not.mpr htarget), herr]
    · have hlen : (dumpHeader db.clockFloor).length ≤ n := by
        rw [length_dumpHeader]
        omega
      rw [take_append_of_length_le hlen, restoreStorage_append htarget, length_dumpHeader,
        batchPut_fst (show (raiseClockFloor target db.clockFloor).map.entries = [] from htarget),
        ← readPairs_take hfits (by omega)]
      rcases (readPairs ((db.map.entries.flatMap pairBytes).take (n - 25))).2 with _ | err
      · exact iff_of_false (fun ⟨_, h⟩ => nomatch h) (not_not.mpr ⟨by omega, rfl⟩)
      · exact iff_of_true ⟨err, rfl⟩ fun h => nomatch h.2

/-- A store with one pair, outside the catalog. -/
def onePair : Storage := ⟨⟨[([1], [2])], pairwise_singleton _ _⟩, 7⟩

/-- A fresh store. -/
def freshStorage : Storage := ⟨.empty, 0⟩

/-- The bytes of the dump of `onePair`. -/
def onePairDump : Bytes := dumpHeader 7 ++ pairBytes ([1], [2])

lemma dumpStorage_onePair :
    dumpStorage (γ := Empty) (fun _ => .ok []) onePair = .ok onePairDump := rfl

/-- The whole dump, and a dump cut inside the value. -/
theorem dump_restore_iff_onePair :
    (∃ restored, restoreStorage freshStorage onePairDump = (.ok (), restored) ∧
      restored.map = onePair.map) ∧
    ∃ err, (restoreStorage freshStorage (onePairDump.take 42)).1 = .error err := by
  have hfits : onePair.Fits := by simp [Storage.Fits, onePair]
  obtain ⟨⟨restored, -, hrestored, hmap, -⟩, hcut⟩ :=
    @dump_restore_iff _ _ _ freshStorage _ hfits dumpStorage_onePair rfl
  refine ⟨⟨restored, hrestored, hmap⟩, (hcut 42 (by decide)).mpr ?_⟩
  rintro ⟨-, i, hi, -, hhigh⟩
  obtain rfl : i = 0 := by simpa [onePair] using hi
  simp [pairOffset] at hhigh

/-- The dump of `onePair`, cut behind its header or inside the length of its one key, restores to
nothing without an error. -/
theorem restore_cut_onePair : dumpStorage (γ := Empty) (fun _ => .ok []) onePair = .ok onePairDump ∧
    ∀ n, 25 ≤ n → n < 33 → n < onePairDump.length ∧
      ∃ restored, restoreStorage freshStorage (onePairDump.take n) = (.ok (), restored) ∧
        restored.map = .empty ∧ restored.map ≠ onePair.map := by
  refine ⟨dumpStorage_onePair, fun n hlow hhigh => ⟨?_, ?_⟩⟩
  · rw [onePairDump, length_append, length_dumpHeader, length_pairBytes]
    omega
  · have hlen : (dumpHeader 7).length ≤ n := by rwa [length_dumpHeader]
    refine ⟨{ raiseClockFloor freshStorage 7 with map := .empty }, ?_, rfl, ?_⟩
    · rw [onePairDump, take_append_of_length_le hlen, restoreStorage_append rfl, length_dumpHeader,
        readPairs_of_none (readPair_short (by rw [length_take]; omega))]
      exact batchPut_whole rfl .empty
    · intro h
      exact absurd (congrArg entries h) (by decide)

end Kyzo

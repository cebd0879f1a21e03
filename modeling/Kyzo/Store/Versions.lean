import Kyzo.Lib.Bitemporal
import Kyzo.Store.SkipWalk

/-!
# Versions of facts and their keys

A bitemporal keyspace holds versions of facts, keyed by the fact and its two time slots.  Keys sort
by fact, then from the latest instant and the newest system version down, and the kernel judges the
key of a version by its times.
-/

namespace Kyzo

open List Ordering RawValue Kyzo.Tuple ValiditySlot

/-- A stored version of a fact: its relation and key columns, its two times, its polarity and its
non-key columns. -/
structure Version where
  rel : RelationId
  fact : Tuple
  valid : Int64
  sys : Int64
  polarity : ClaimPolarity
  payload : Tuple

namespace Version

variable (r : Version)

/-- The key of a fact with any two slots. -/
def splice (valid sys : ValiditySlot) : Bytes :=
  encodeKeyWithSuffix r.rel r.fact [.validity valid, .validity sys]

/-- The slot of a stored time, whose flag is pinned. -/
def slot (ts : Int64) : ValiditySlot := .fromStored ts true

@[simp] lemma tsMicros_slot (ts : Int64) : (slot ts).tsMicros = ts :=
  tsMicros_fromStored ts true

@[simp] lemma isAssert_slot (ts : Int64) : (slot ts).isAssert = true :=
  isAssert_fromStored ts true

/-- The storage key of a version. -/
def key : Bytes := r.splice (slot r.valid) (slot r.sys)

/-- The stored value of a version. -/
def value : Bytes := r.polarity.encode :: r.payload.bare

/-- The row a scan emits for a version: key columns, time slots and non-key columns. -/
def row : Tuple :=
  r.fact ++ [.validity (slot r.valid), .validity (slot r.sys)] ++ r.payload

/-! ## The order of keys -/

lemma compare_validity (a b : ValiditySlot) :
    compare (DataValue.validity a) (DataValue.validity b) = a.cmp b := by
  have htag : ¬(RawValue.validity a).tag.cmp (RawValue.validity b).tag ≠ .eq := not_not.mpr rfl
  change RawValue.cmp (.validity a) (.validity b) = a.cmp b
  rw [RawValue.cmp, if_neg htag]

end Version

lemma Tuple.compare_append {t u : Tuple} (hlen : t.length = u.length) (t' u' : Tuple) :
    compare (t ++ t') (u ++ u') = (compare t u).then (compare t' u') := by
  induction t generalizing u with
  | nil =>
    obtain rfl := length_eq_zero_iff.mp hlen.symm
    rfl
  | cons v t ih =>
    rcases u with _ | ⟨w, u⟩
    · cases hlen
    · rw [cons_append, cons_append, compare_cons, compare_cons,
        ih (Nat.succ_injective hlen), then_assoc]

lemma RelationId.compare_eq_iff {a b : RelationId} :
    compare a.raw.toNat b.raw.toNat = .eq ↔ a = b := by
  rw [Nat.compare_eq_eq, UInt64.toNat_inj]
  constructor
  · intro h
    obtain ⟨raw, below⟩ := a
    obtain rfl : raw = b.raw := h
    rfl
  · rintro rfl
    rfl

namespace Version

/-- **Keys sort by fact and then by slots**, if the facts of a relation have one length. -/
theorem compare_splice {d r : Version} (harity : d.rel = r.rel → d.fact.length = r.fact.length)
    (dv ds v s : ValiditySlot) :
    compare (d.splice dv ds) (r.splice v s) =
      (compare d.rel.raw.toNat r.rel.raw.toNat).then
        ((compare d.fact r.fact).then ((dv.cmp v).then (ds.cmp s))) := by
  have hfit : ∀ rel : RelationId, rel.raw.toNat < 256 ^ 8 := fun rel => UInt64.toNat_lt rel.raw
  rw [splice, splice, encodeKeyWithSuffix, encodeKeyWithSuffix, append_assoc,
    append_assoc, ← bare_append, ← bare_append, RelationId.rawEncode,
    RelationId.rawEncode, u64Bytes, u64Bytes, Settles.beBytes (hfit d.rel) (hfit r.rel),
    compare_bare]
  rcases hrel : compare d.rel.raw.toNat r.rel.raw.toNat with _ | _ | _
  · rfl
  · rw [compare_append (harity (RelationId.compare_eq_iff.mp hrel)), compare_cons,
      compare_cons, compare_validity, compare_validity]
    simp
  · rfl

/-! ## The kernel on the key of a version -/

variable (r : Version)

/-- The part of a key before its slots. -/
def stem : Bytes := r.rel.rawEncode ++ r.fact.bare

lemma splice_eq (v s : ValiditySlot) :
    r.splice v s = r.stem ++ encodeOwned (.validity v) ++ encodeOwned (.validity s) := by
  simp [splice, encodeKeyWithSuffix, stem, DataValue.validity, append_assoc]

@[simp] lemma length_encode_validity (v : ValiditySlot) :
    (encodeOwned (.validity v)).length = validityTailLen := by
  simp [encodeOwned, descTsKey, ascTsKey, validityTailLen]

lemma length_stem_ge : relationPrefixLen ≤ r.stem.length := by
  simp [stem, RelationId.rawEncode, relationPrefixLen]

@[simp] lemma length_splice (v s : ValiditySlot) :
    (r.splice v s).length = r.stem.length + bitemporalTailLen := by
  rw [splice_eq, length_append, length_append, length_encode_validity,
    length_encode_validity, bitemporalTailLen]
  omega

lemma decodeSlot_encode (missing trailing : BitemporalDecodeError) (v : ValiditySlot) :
    decodeSlot missing trailing (encodeOwned (.validity v)) = .ok v := by
  have hone : decodeOne (encodeOwned (.validity v)) =
      .ok (.validity v, (encodeOwned (.validity v)).length) := by
    have hread := (decodeAt_answers (.validity v) (maxDepth + 1)).reads (by simp [depth]) []
    rwa [append_nil] at hread
  have hkey : decodeFromKey (encodeOwned (.validity v)) = .ok (.validity v, []) := by
    rw [decodeFromKey, hone]
    exact congrArg (fun rest => Except.ok (validity v, rest)) (drop_length)
  rw [decodeSlot, hkey]
  rfl

/-- **The kernel judges a version by its times and its polarity.** -/
theorem checkKeyForBitemporal_key (polarity : ClaimPolarity) (asOf : AsOf) :
    checkKeyForBitemporal r.key polarity asOf =
      if asOf.valid < r.valid then .ok (none, r.splice (slot asOf.valid) (slot asOf.sys))
      else if asOf.sys < r.sys then .ok (none, r.splice (slot r.valid) (slot asOf.sys))
      else
        match polarity with
        | .erase => .ok (none, r.splice (slot r.valid) terminalValidity)
        | .retract => .ok (none, r.splice terminalValidity terminalValidity)
        | .assert => ((decodeTupleFromKey r.key).mapError ScanError.decode).map fun decoded =>
          (some decoded, r.splice terminalValidity terminalValidity) := by
  have hlen := r.length_splice (slot r.valid) (slot r.sys)
  have hstem := r.length_stem_ge
  have hsys : r.key.length - validityTailLen =
      (r.stem ++ encodeOwned (.validity (slot r.valid))).length := by
    rw [key, hlen, length_append, length_encode_validity, bitemporalTailLen]
    omega
  have hvalid : r.key.length - bitemporalTailLen = r.stem.length := by
    rw [key, hlen, Nat.add_sub_cancel]
  have hkey : r.key = r.stem ++ encodeOwned (.validity (slot r.valid)) ++
      encodeOwned (.validity (slot r.sys)) := r.splice_eq _ _
  have htake : r.key.take (r.key.length - validityTailLen) =
      r.stem ++ encodeOwned (.validity (slot r.valid)) := by
    rw [hsys, hkey, take_left]
  have hdrop : r.key.drop (r.key.length - validityTailLen) =
      encodeOwned (.validity (slot r.sys)) := by
    rw [hsys, hkey, drop_left]
  have hmid : (r.stem ++ encodeOwned (.validity (slot r.valid))).drop
      (r.key.length - bitemporalTailLen) = encodeOwned (.validity (slot r.valid)) := by
    rw [hvalid, drop_left]
  have hfront : r.key.take (r.key.length - bitemporalTailLen) = r.stem := by
    rw [hvalid, hkey, append_assoc, take_left]
  have hflags : ¬((slot r.valid).isAssert = false ∨ (slot r.sys).isAssert = false) := by
    simp
  rw [checkKeyForBitemporal, if_neg (by rw [key]; omega)]
  simp only [htake, hdrop, hmid, hfront, decodeSlot_encode, splice_eq]
  refine (if_neg hflags).trans ?_
  simp only [tsMicros_slot]
  split_ifs with hlate hnew
  · rfl
  · rfl
  · rcases polarity with _ | _ | _
    · rcases decodeTupleFromKey r.key with e | decoded <;> rfl
    · rfl
    · rfl

/-! ## Reading a version back -/

@[simp] lemma claimPolarityOfValue_value : claimPolarityOfValue r.value = .ok r.polarity := by
  rw [value]
  rcases r.polarity with _ | _ | _ <;> rfl

lemma decodeTupleFromKey_key : decodeTupleFromKey r.key =
      decodeTupleBare
        (r.fact ++ [.validity (slot r.valid), .validity (slot r.sys)] : Tuple).bare := by
  rw [key, splice, encodeKeyWithSuffix, append_assoc,
    ← bare_append]
  rfl

lemma shallow_slots (t : Tuple) (v s : ValiditySlot) :
    Shallow (t ++ [.validity v, .validity s]) ↔ t.Shallow := by
  have hslot : ∀ v : ValiditySlot, (DataValue.validity v).val.depth ≤ maxDepth :=
    fun v => Nat.zero_le _
  rw [Shallow, forall_mem_append, forall_mem_cons, forall_mem_singleton]
  exact and_iff_left ⟨hslot v, hslot s⟩

lemma decodeTupleFromKey_key_eq_ok (hfact : r.fact.Shallow) : decodeTupleFromKey r.key =
      .ok ((r.fact ++ [.validity (slot r.valid), .validity (slot r.sys)] : Tuple).map
        Subtype.val) := by
  rw [decodeTupleFromKey_key, decodeTupleBare_bare]
  exact if_pos ((shallow_slots r.fact _ _).mpr hfact)

lemma extendTupleFromBitemporalV_value (tup : List RawValue) (hpayload : r.payload.Shallow) :
    extendTupleFromBitemporalV tup r.value = .ok (tup ++ r.payload.map Subtype.val) := by
  have hdecode : decodeValuesAll r.payload.bare = .ok (r.payload.map Subtype.val) :=
    (decodeTupleBare_bare r.payload).trans (if_pos hpayload)
  rw [value, extendTupleFromBitemporalV]
  split_ifs with hempty
  · obtain hnil : r.payload = [] := bare_injective hempty
    rw [hnil, map_nil, append_nil]
  · rw [hdecode]
    rfl

/-! ## Versions on their timeline -/

end Version

/-- What a polarity says about its fact. -/
def ClaimPolarity.stance : ClaimPolarity → Stance
  | .assert => .holds
  | .retract => .ended
  | .erase => .unrecorded

namespace Version

/-- How versions are read on the two time axes. -/
def timeline : Timeline Version (RelationId × Tuple) ℤ where
  fact r := (r.rel, r.fact)
  valid r := r.valid.toInt
  sys r := r.sys.toInt
  stance r := r.polarity.stance

variable {d r : Version}

lemma key_eq_of_coordinates (hfact : timeline.fact d = timeline.fact r)
    (hvalid : timeline.valid d = timeline.valid r) (hsys : timeline.sys d = timeline.sys r) :
    d.key = r.key := by
  obtain ⟨hrel, hcols⟩ := Prod.mk.inj hfact
  rw [key, key, splice, splice, hrel, hcols, Int64.toInt_inj.mp hvalid, Int64.toInt_inj.mp hsys]

lemma cmp_slot (a b : Int64) : (slot a).cmp (slot b) = compare b.toInt a.toInt := by
  rw [ValiditySlot.cmp, tsMicros_slot, tsMicros_slot, isAssert_slot, isAssert_slot, compare_int64]
  exact then_eq

lemma cmp_slot_terminal (a : Int64) : (slot a).cmp terminalValidity = .lt := by
  have hmin : ¬a < Int64.minValue := Int64.not_lt.mpr (Int64.minValue_le a)
  rw [ValiditySlot.cmp, tsMicros_slot, isAssert_slot]
  rcases hcmp : compare terminalValidity.tsMicros a with _ | _ | _
  · rfl
  · rfl
  · rw [Std.OrientedCmp.gt_iff_lt] at hcmp
    exact absurd (compareOfLessAndEq_eq_lt.mp hcmp) hmin

lemma then_cmp_slot_eq_lt {a b c d : Int64} :
    ((slot a).cmp (slot b)).then ((slot c).cmp (slot d)) = .lt ↔
      b.toInt < a.toInt ∨ b.toInt = a.toInt ∧ d.toInt < c.toInt := by
  rw [cmp_slot, cmp_slot, then_eq_lt, compare_lt_iff_lt, compare_eq_iff_eq,
    compare_lt_iff_lt]

/-- **Between a version and a bound in its fact lie only versions of that fact.** -/
theorem compare_key_splice_eq_lt (harity : d.rel = r.rel → d.fact.length = r.fact.length)
    (hafter : compare r.key d.key ≠ .gt) (v s : ValiditySlot) : compare d.key (r.splice v s) = .lt ↔
      timeline.fact d = timeline.fact r ∧
        ((slot d.valid).cmp v).then ((slot d.sys).cmp s) = .lt := by
  have hnot : compare d.key r.key ≠ .lt := mt Std.OrientedCmp.gt_iff_lt.mpr hafter
  rw [key, key, compare_splice harity] at hnot
  rw [key, compare_splice harity]
  have hfact : timeline.fact d = timeline.fact r ↔
      compare d.rel.raw.toNat r.rel.raw.toNat = .eq ∧ compare d.fact r.fact = .eq := by
    rw [RelationId.compare_eq_iff, compare_eq_iff]
    exact Prod.mk.injEq .. ▸ Iff.rfl
  rw [hfact]
  rcases hrel : compare d.rel.raw.toNat r.rel.raw.toNat with _ | _ | _
  · rw [hrel] at hnot
    exact absurd rfl hnot
  · rcases hcols : compare d.fact r.fact with _ | _ | _
    · rw [hrel, hcols] at hnot
      exact absurd rfl hnot
    · simp
    · simp
  · simp

end Version

end Kyzo

import Kyzo.Store.Identity
import Kyzo.Value.Access
import Kyzo.Value.Tuple

/-!
# The bitemporal skip walk

Storage keys of bitemporal rows, the kernel that judges one key at a pair of query times and hands
back where to seek next, and the walk that drives it over an ordered map.
-/

namespace Kyzo

open List Ordering

/-! ## Storage keys -/

/-- `RelationId`, below `RelationId::CAP`. -/
structure RelationId where
  raw : UInt64
  below : raw.toNat < 2 ^ 48
  deriving DecidableEq

def RelationId.rawEncode (rel : RelationId) : Bytes := u64Bytes rel.raw

def relationPrefixLen : ℕ := 8

def validityTailLen : ℕ := 10

def bitemporalTailLen : ℕ := 2 * validityTailLen

def DataValue.validity (slot : ValiditySlot) : DataValue := ⟨.validity slot, .validity slot⟩

def encodeKeyWithSuffix (rel : RelationId) (cols suffix : Tuple) : Bytes :=
  rel.rawEncode ++ cols.bare ++ suffix.bare

def decodeTupleFromKey (key : Bytes) : Except DecodeError (List RawValue) :=
  if key.length < relationPrefixLen then .error .truncated
  else decodeValuesAll (key.drop relationPrefixLen)

def decodeFromKey (bytes : Bytes) : Except DecodeError (RawValue × Bytes) := do
  let (v, used) ← decodeOne bytes
  .ok (v, bytes.drop used)

/-- The `TERMINAL_VALIDITY` slot: the oldest instant, retracted. -/
def terminalValidity : ValiditySlot := .value ⟨Int64.minValue, false, by simp⟩

/-! ## The kernel -/

structure AsOf where
  valid : Int64
  sys : Int64

inductive ClaimPolarity where
  | assert
  | retract
  | erase
  deriving DecidableEq

def ClaimPolarity.encode : ClaimPolarity → UInt8
  | .assert => 0
  | .retract => 1
  | .erase => 2

/-- `BitemporalDecodeError`, as far as a scan raises it. -/
inductive BitemporalDecodeError where
  | valueTruncated
  | unknownPolarity (byte : UInt8)
  | keyTooShort
  | missingValidSlot
  | validSlotTrailing
  | missingSysSlot
  | sysSlotTrailing
  | slotRetractFlag
  deriving DecidableEq

/-- Why a scan stops: a cursor that fails, a key or value out of form, or one that does not
decode. -/
inductive ScanError where
  | storage (message : String)
  | bitemporal (e : BitemporalDecodeError)
  | decode (e : DecodeError)
  deriving DecidableEq

def claimPolarityOfValue (val : Bytes) : Except ScanError ClaimPolarity :=
  match val with
  | [] => .error (.bitemporal .valueTruncated)
  | byte :: _ =>
    if byte = ClaimPolarity.assert.encode then .ok .assert
    else if byte = ClaimPolarity.retract.encode then .ok .retract
    else if byte = ClaimPolarity.erase.encode then .ok .erase
    else .error (.bitemporal (.unknownPolarity byte))

/-- The decoding of one time slot in `check_key_for_bitemporal`, with the errors of the slot. -/
def decodeSlot (missing trailing : BitemporalDecodeError) (bytes : Bytes) :
    Except ScanError ValiditySlot := do
  let (v, rest) ← (decodeFromKey bytes).mapError .decode
  match v with
  | .validity slot => if rest = [] then .ok slot else .error (.bitemporal trailing)
  | _ => .error (.bitemporal missing)

/-- `check_key_for_bitemporal`: the row to emit, if any, and the bound to seek next. -/
def checkKeyForBitemporal (key : Bytes) (polarity : ClaimPolarity) (asOf : AsOf) :
    Except ScanError (Option (List RawValue) × Bytes) :=
  if key.length < relationPrefixLen + bitemporalTailLen then .error (.bitemporal .keyTooShort)
  else do
    let validOff := key.length - bitemporalTailLen
    let sysOff := key.length - validityTailLen
    let valid ← decodeSlot .missingValidSlot .validSlotTrailing ((key.take sysOff).drop validOff)
    let sys ← decodeSlot .missingSysSlot .sysSlotTrailing (key.drop sysOff)
    if valid.isAssert = false ∨ sys.isAssert = false then .error (.bitemporal .slotRetractFlag)
    else
      let spliceBoth (v s : ValiditySlot) : Bytes :=
        key.take validOff ++ encodeOwned (.validity v) ++ encodeOwned (.validity s)
      let spliceSys (s : ValiditySlot) : Bytes := key.take sysOff ++ encodeOwned (.validity s)
      if asOf.valid < valid.tsMicros then
        .ok (none, spliceBoth (.fromStored asOf.valid true) (.fromStored asOf.sys true))
      else if asOf.sys < sys.tsMicros then .ok (none, spliceSys (.fromStored asOf.sys true))
      else
        match polarity with
        | .erase => .ok (none, spliceSys terminalValidity)
        | .retract => .ok (none, spliceBoth terminalValidity terminalValidity)
        | .assert => do
          let decoded ← (decodeTupleFromKey key).mapError .decode
          .ok (some decoded, spliceBoth terminalValidity terminalValidity)

def extendTupleFromBitemporalV (tup : List RawValue) (val : Bytes) :
    Except ScanError (List RawValue) :=
  match val with
  | [] => .error (.bitemporal .valueTruncated)
  | _ :: payload =>
    if payload = [] then .ok tup
    else do
      let cols ← (decodeValuesAll payload).mapError .decode
      .ok (tup ++ cols)

/-! ## The walk -/

def advancePast (examined candidateBound : Bytes) : Bytes :=
  if compare candidateBound examined = .gt then candidateBound else examined ++ [0]

lemma compare_advancePast (examined candidateBound : Bytes) :
    compare examined (advancePast examined candidateBound) = .lt := by
  rw [advancePast]
  split_ifs with h
  · rwa [Std.OrientedCmp.gt_iff_lt] at h
  · have hsucc := Settles.refl examined [] [0]
    rwa [append_nil] at hsucc

/-- A `BTreeMap` from bytes to bytes: its entries in the order of their keys. -/
structure ByteMap where
  entries : List (Bytes × Bytes)
  ascending : entries.Pairwise fun a b => compare a.1 b.1 = .lt

lemma ByteMap.ext {m m' : ByteMap} (h : m.entries = m'.entries) : m = m' := by
  cases m
  cases h
  rfl

/-- `SkipWalk`, over the cursor of an ordered map.  `faults` is what each seek of the cursor from
here on fails with, if it does. -/
structure SkipWalk where
  map : ByteMap
  upper : Bytes
  asOf : AsOf
  nextBound : Bytes
  faults : ℕ → Option ScanError

namespace SkipWalk

/-- A walk whose cursor does not fail. -/
def new (map : ByteMap) (lower upper : Bytes) (asOf : AsOf) : SkipWalk :=
  ⟨map, upper, asOf, lower, fun _ => none⟩

/-- The cursor's `seek`: the first entry at or after the bound and below the upper end. -/
def seek (w : SkipWalk) : Option (Except ScanError (Bytes × Bytes)) :=
  match w.faults 0 with
  | some e => some (.error e)
  | none => (w.map.entries.find? fun e =>
      compare w.nextBound e.1 ≠ .gt ∧ compare e.1 w.upper = .lt).map .ok

/-- The walk after a seek. -/
def sought (w : SkipWalk) : SkipWalk := { w with faults := fun i => w.faults (i + 1) }

/-- The walk with its bound moved past the key examined. -/
def advance (w : SkipWalk) (examined candidateBound : Bytes) : SkipWalk :=
  { w.sought with nextBound := advancePast examined candidateBound }

/-- The end of a turn that found an entry: the item it returns, if any, and the walk that
remains. -/
def visit (w : SkipWalk) (k v : Bytes) : Option (Except ScanError (List RawValue)) × SkipWalk :=
  match claimPolarityOfValue v with
  | .error e => (some (.error e), w.sought)
  | .ok polarity =>
    match checkKeyForBitemporal k polarity w.asOf with
    | .error e => (some (.error e), w.sought)
    | .ok (some tup, nxtBound) => (some (extendTupleFromBitemporalV tup v), w.advance k nxtBound)
    | .ok (none, nxtBound) => (none, w.advance k nxtBound)

/-- One turn of the loop in `SkipWalk::next`, unless it ends. -/
def turn (w : SkipWalk) : Option (Option (Except ScanError (List RawValue)) × SkipWalk) :=
  if compare w.nextBound w.upper ≠ .lt then none
  else
    match w.seek with
    | none => none
    | some (.error e) => some (some (.error e), w.sought)
    | some (.ok (k, v)) => some (w.visit k v)

/-- How many entries the walk has ahead. -/
def ahead (w : SkipWalk) : ℕ :=
  (w.map.entries.filter fun e => compare w.nextBound e.1 ≠ .gt).length

variable {w w' : SkipWalk} {e : Bytes × Bytes}

lemma find?_of_seek (h : w.seek = some (.ok e)) : w.map.entries.find? (fun e =>
    compare w.nextBound e.1 ≠ .gt ∧ compare e.1 w.upper = .lt) = some e := by
  unfold seek at h
  split at h
  · cases h
  · obtain ⟨found, hfound, hok⟩ := Option.map_eq_some_iff.mp h
    cases hok
    exact hfound

/-- **Progress**: every key examined is left behind. -/
theorem ahead_advance_lt (h : w.seek = some (.ok e)) (candidateBound : Bytes) :
    (w.advance e.1 candidateBound).ahead < w.ahead := by
  have hfind := find?_of_seek h
  have hfound := find?_some hfind
  simp only [decide_eq_true_eq] at hfound
  have hlt := compare_advancePast e.1 candidateBound
  refine length_filter_lt (mem_of_find?_eq_some hfind) (fun e' _ he' => ?_) (by simp [hfound.1]) ?_
  · have hnext : compare e.1 e'.1 = .lt :=
      Std.TransCmp.lt_of_lt_of_isLE hlt (isLE_iff_ne_gt.mpr (of_decide_eq_true he'))
    refine decide_eq_true (isLE_iff_ne_gt.mp ?_)
    exact Std.TransCmp.isLE_trans (isLE_iff_ne_gt.mpr hfound.1) (by rw [hnext]; rfl)
  · rw [decide_eq_false_iff_not, not_not, Std.OrientedCmp.gt_iff_lt]
    exact hlt

lemma ahead_turn_lt {item : Option (Except ScanError (List RawValue))}
    (h : w.turn = some (item, w')) (hitem : ∀ e, item ≠ some (.error e)) : w'.ahead < w.ahead := by
  unfold turn at h
  split_ifs at h
  split at h
  case h_1 => cases h
  case h_2 e _ =>
    cases h
    exact absurd rfl (hitem e)
  case h_3 k v hseek =>
    unfold visit at h
    split at h
    · cases h
      exact absurd rfl (hitem _)
    split at h
    · cases h
      exact absurd rfl (hitem _)
    · cases h
      exact ahead_advance_lt hseek _
    · cases h
      exact ahead_advance_lt hseek _

/-- `SkipWalk::next`: an item with the walk that remains, or the end. -/
def next (w : SkipWalk) : Option (Except ScanError (List RawValue) × SkipWalk) :=
  match _ : w.turn with
  | none => none
  | some (some item, w') => some (item, w')
  | some (none, w') => w'.next
termination_by w.ahead
decreasing_by exact ahead_turn_lt ‹_› fun _ h => by cases h

lemma next_eq (w : SkipWalk) : w.next = match w.turn with
    | none => none
    | some (some item, w') => some (item, w')
    | some (none, w') => w'.next := by
  rw [next]
  split <;> rename_i hturn <;> rw [hturn]

lemma ahead_next_lt {tup : List RawValue} (h : w.next = some (.ok tup, w')) :
    w'.ahead < w.ahead := by
  fun_induction next w with
  | case1 w hturn => cases h
  | case2 w item w'' hturn =>
    cases h
    exact ahead_turn_lt hturn fun _ h => by cases h
  | case3 w w'' hturn ih =>
    exact (ih h).trans (ahead_turn_lt hturn fun _ h => by cases h)

/-- The walk collected into one result, which the first error ends. -/
def collect (w : SkipWalk) : Except ScanError (List (List RawValue)) :=
  match _ : w.next with
  | none => .ok []
  | some (.error e, _) => .error e
  | some (.ok tup, w') => do
    let tups ← w'.collect
    .ok (tup :: tups)
termination_by w.ahead
decreasing_by exact ahead_next_lt ‹_›

end SkipWalk

end Kyzo

import Mathlib
import Kyzo.Store.SkipWalk

/-!
# Dump and restore

`store/backup.rs`: the portable dump of a store and its restore.  A dump is a magic, a format
version, the clock floor of the source and then, for each pair in key order, the key and the value,
each behind its length.
-/

namespace Kyzo

open List

inductive KeyspaceKind where
  | facts
  | algorithmState
  deriving DecidableEq

/-- A storage engine as dump and restore see it: its pairs and its clock floor. -/
structure Storage where
  map : ByteMap
  clockFloor : Int64

variable (db : Storage)

/-- The keys and values of a store are vectors, whose lengths are machine words. -/
def Storage.Fits : Prop :=
  ∀ e ∈ db.map.entries, e.1.length < 2 ^ 64 ∧ e.2.length < 2 ^ 64

structure FormatVersion where
  raw : UInt16
  deriving DecidableEq

def FormatVersion.current : FormatVersion := ⟨6⟩

def FormatVersion.asBytes (v : FormatVersion) : Bytes := ascii (toString v.raw.toNat)

/-- `MAGIC`. -/
def dumpMagic : Bytes := ascii "KYZODMP2"

/-! ## Dumping -/

/-- What `system_stamp_of_key` refuses. -/
inductive StampError where
  | keyTooShort
  | missingSys
  | sysTrailing
  | sysRetract
  | decode (e : DecodeError)

def systemStampOfKey (key : Bytes) : Except StampError Int64 :=
  if key.length < relationPrefixLen + bitemporalTailLen then .error .keyTooShort
  else do
    let sysOff := key.length - validityTailLen
    let (sysVal, rest) ← (decodeFromKey (key.drop sysOff)).mapError .decode
    match sysVal with
    | .validity sys =>
      if rest ≠ [] then .error .sysTrailing
      else if sys.isAssert = false then .error .sysRetract
      else .ok sys.tsMicros
    | _ => .error .missingSys

def RelationId.new (raw : UInt64) : Option RelationId :=
  if h : raw.toNat < 2 ^ 48 then some ⟨raw, h⟩ else none

def relationPrefix (key : Bytes) : Option RelationId :=
  if key.length < relationPrefixLen then none
  else RelationId.new (UInt64.ofNat (beNat (key.take relationPrefixLen)))

/-- What `dump_storage` refuses. -/
inductive DumpError (γ : Type) where
  /-- The catalog does not decode. -/
  | catalog (e : γ)
  | stamp (e : StampError)
  | clockFloorViolation (relation : RelationId) (stamp floor : Int64)

/-- A key or a value behind its length. -/
def lenPrefixed (b : Bytes) : Bytes := u64Bytes (UInt64.ofNat b.length) ++ b

/-- A pair of a dump. -/
def pairBytes (e : Bytes × Bytes) : Bytes := lenPrefixed e.1 ++ lenPrefixed e.2

/-- What a dump begins with. -/
def dumpHeader (floor : Int64) : Bytes :=
  dumpMagic ++ lenPrefixed FormatVersion.current.asBytes ++ u64Bytes floor.toUInt64

section

variable {γ : Type} (listRelations : ByteMap → Except γ (List (RelationId × KeyspaceKind)))

def verifyStampWithinFloor (id : RelationId) (key : Bytes) (floor : Int64) :
    Except (DumpError γ) Unit := do
  let stamp ← (systemStampOfKey key).mapError .stamp
  if stamp > floor then .error (.clockFloorViolation id stamp floor) else .ok ()

/-- A key that begins with the id of a fact relation of the catalog. -/
def factRelation (kinds : List (RelationId × KeyspaceKind)) (key : Bytes) : Option RelationId :=
  (relationPrefix key).filter fun id => kinds.lookup id = some .facts

/-- The check of one key in `dump_storage`. -/
def verifyFact (kinds : List (RelationId × KeyspaceKind)) (floor : Int64) (key : Bytes) :
    Except (DumpError γ) Unit :=
  match factRelation kinds key with
  | some id => verifyStampWithinFloor id key floor
  | none => .ok ()

/-- The scan loop of `dump_storage`. -/
def dumpPairs (kinds : List (RelationId × KeyspaceKind)) (floor : Int64) :
    List (Bytes × Bytes) → Except (DumpError γ) Bytes
  | [] => .ok []
  | e :: rest => do
    verifyFact kinds floor e.1
    let out ← dumpPairs kinds floor rest
    .ok (pairBytes e ++ out)

/-- `dump_storage`: the bytes it writes.  The catalog is read by `listRelations`. -/
def dumpStorage (db : Storage) : Except (DumpError γ) Bytes := do
  let floor := db.clockFloor
  let kinds ← (listRelations db.map).mapError .catalog
  let pairs ← dumpPairs kinds floor db.map.entries
  .ok (dumpHeader floor ++ pairs)

end

/-! ## Restoring -/

/-- What `restore_storage` refuses. -/
inductive RestoreError where
  /-- "restore target is not empty: restore only into a fresh store". -/
  | targetNotEmpty
  /-- "bulk import target is not empty: import only into a fresh store". -/
  | importTargetNotEmpty
  /-- The end of the file inside the magic. -/
  | unexpectedEof
  /-- "not a KyzoDB dump file: bad magic". -/
  | badMagic
  /-- "truncated dump: missing format version". -/
  | missingVersion
  /-- "corrupt format version". -/
  | corruptVersion
  /-- "dump format version mismatch". -/
  | versionMismatch (found : FormatVersion)
  /-- "truncated dump: missing clock floor". -/
  | missingFloor
  /-- "truncated dump: field shorter than its length prefix". -/
  | shortField
  /-- "truncated dump: key without a value". -/
  | keyWithoutValue
  deriving DecidableEq

/-- The number that decimal digits stand for. -/
def digitsValue (digits : Bytes) : Option ℕ :=
  if digits ≠ [] ∧ ∀ d ∈ digits, 48 ≤ d.toNat ∧ d.toNat ≤ 57 then
    some (digits.foldl (fun n d => n * 10 + (d.toNat - 48)) 0)
  else none

/-- `FormatVersion::parse`: a number in the spelling this code writes. -/
def FormatVersion.parse (bytes : Bytes) : Except RestoreError FormatVersion :=
  match digitsValue bytes with
  | some n =>
    if n < 2 ^ 16 ∧ (FormatVersion.mk (UInt16.ofNat n)).asBytes = bytes then
      .ok ⟨UInt16.ofNat n⟩
    else .error .corruptVersion
  | none => .error .corruptVersion

/-- `read_len_prefixed`: a field with what follows it, or nothing if the stream ends before the
length is whole. -/
def readLenPrefixed (r : Bytes) : Except RestoreError (Option (Bytes × Bytes)) :=
  if r.length < 8 then .ok none
  else
    let len := beNat (r.take 8)
    let rest := r.drop 8
    if rest.length < len then .error .shortField else .ok (some (rest.take len, rest.drop len))

def readPair (r : Bytes) : Except RestoreError (Option ((Bytes × Bytes) × Bytes)) := do
  match ← readLenPrefixed r with
  | none => .ok none
  | some (k, r) =>
    match ← readLenPrefixed r with
    | none => .error .keyWithoutValue
    | some (v, r) => .ok (some ((k, v), r))

lemma length_readLenPrefixed {r k rest : Bytes} (h : readLenPrefixed r = .ok (some (k, rest))) :
    rest.length + 8 ≤ r.length := by
  rw [readLenPrefixed] at h
  by_cases hshort : r.length < 8
  · rw [if_pos hshort] at h
    cases h
  simp only at h
  split_ifs at h with hlen
  cases h
  simp only [length_drop]
  omega

lemma length_readPair {r rest : Bytes} {e : Bytes × Bytes}
    (h : readPair r = .ok (some (e, rest))) : rest.length < r.length := by
  rw [readPair] at h
  rcases hk : readLenPrefixed r with err | _ | ⟨k, r'⟩
  · rw [hk] at h
    cases h
  · rw [hk] at h
    cases h
  rw [hk] at h
  change (readLenPrefixed r' >>= _) = _ at h
  rcases hv : readLenPrefixed r' with err | _ | ⟨v, r''⟩
  · rw [hv] at h
    cases h
  · rw [hv] at h
    cases h
  rw [hv] at h
  cases h
  have h1 := length_readLenPrefixed hk
  have h2 := length_readLenPrefixed hv
  omega

/-- The items of the iterator that `restore_storage` reads pairs from: the pairs before the end or
the first error, and that error. -/
def readPairs (r : Bytes) : List (Bytes × Bytes) × Option RestoreError :=
  match _h : readPair r with
  | .error e => ([], some e)
  | .ok none => ([], none)
  | .ok (some (pair, rest)) =>
    let (pairs, err) := readPairs rest
    (pair :: pairs, err)
termination_by r.length
decreasing_by exact length_readPair _h

/-- The insertion of a pair. -/
def ByteMap.insert (m : ByteMap) (e : Bytes × Bytes) : ByteMap where
  entries := m.entries.filter (fun x => compare x.1 e.1 = .lt) ++
    e :: m.entries.filter fun x => compare x.1 e.1 = .gt
  ascending := by
    refine pairwise_append.mpr ⟨m.ascending.filter _, pairwise_cons.mpr
      ⟨fun x hx => ?_, m.ascending.filter _⟩, fun x hx y hy => ?_⟩
    · exact Std.OrientedCmp.gt_iff_lt.mp (of_decide_eq_true (mem_filter.mp hx).2)
    · have hlt : compare x.1 e.1 = .lt := of_decide_eq_true (mem_filter.mp hx).2
      rcases mem_cons.mp hy with rfl | hy
      · exact hlt
      · have hgt : compare y.1 e.1 = .gt := of_decide_eq_true (mem_filter.mp hy).2
        exact Std.TransCmp.lt_trans hlt (Std.OrientedCmp.gt_iff_lt.mp hgt)

/-- The empty map. -/
def ByteMap.empty : ByteMap := ⟨[], List.Pairwise.nil⟩

/-- `CHUNK` of `batch_put`. -/
def importChunk : ℕ := 32768

/-- The upper end of the emptiness probe of `batch_put`. -/
def probeEnd : Bytes := List.replicate 9 0xFF

/-- `batch_put` into an idle store: every chunk of pairs is one commit, and an error drops the chunk
it is in. -/
def batchPut (data : List (Bytes × Bytes) × Option RestoreError) :
    Except RestoreError Unit × Storage :=
  if db.map.entries.any fun e => compare e.1 probeEnd = .lt then (.error .importTargetNotEmpty, db)
  else
    match data with
    | (pairs, none) => (.ok (), { db with map := pairs.foldl ByteMap.insert db.map })
    | (pairs, some e) =>
      let committed := pairs.take (pairs.length / importChunk * importChunk)
      (.error e, { db with map := committed.foldl ByteMap.insert db.map })

def raiseClockFloor (floor : Int64) : Storage :=
  { db with clockFloor := if db.clockFloor < floor then floor else db.clockFloor }

/-- The header of a dump: its clock floor and what follows. -/
def readDumpHeader (r : Bytes) : Except RestoreError (Int64 × Bytes) :=
  if r.length < 8 then .error .unexpectedEof
  else if r.take 8 ≠ dumpMagic then .error .badMagic
  else do
    match ← readLenPrefixed (r.drop 8) with
    | none => .error .missingVersion
    | some (version, r) =>
      let found ← FormatVersion.parse version
      if found ≠ .current then .error (.versionMismatch found)
      else if r.length < 8 then .error .missingFloor
      else .ok ((UInt64.ofNat (beNat (r.take 8))).toInt64, r.drop 8)

/-- `restore_storage`: what it returns, and the store it leaves. -/
def restoreStorage (r : Bytes) : Except RestoreError Unit × Storage :=
  if db.map.entries ≠ [] then (.error .targetNotEmpty, db)
  else
    match readDumpHeader r with
    | .error e => (.error e, db)
    | .ok (floor, r) => batchPut (raiseClockFloor db floor) (readPairs r)

end Kyzo

import Kyzo.Store.Identity

/-!
# WAL segments

Segments of hash-chained records, and the replay that rebuilds a store's floors and commits from
them. `append` decides the predecessor rule within one segment, `replay` along all of them.
-/

namespace Kyzo

/-- A predecessor or record hash (`WalHash`). -/
abbrev WalHash := Bytes32

def genesisPredecessor : WalHash := .replicate 0

inductive MintDomain where
  | commit
  | compact
  | rotate
  deriving DecidableEq

structure DomainCounter where
  raw : UInt64
  deriving DecidableEq

inductive WalPayload where
  | commit (commitOrdinal : CommitOrdinal) (body : Bytes)
  | nonceFloor (domain : MintDomain) (ceiling : DomainCounter)
  | incarnationSealed (incarnationId : IncarnationId)
  deriving DecidableEq

/-- The tag byte of a domain in `hash_record`. -/
def MintDomain.recordTag : MintDomain → UInt8
  | .commit => 1
  | .compact => 2
  | .rotate => 3

namespace WalPayload

/-- The part of a record's preimage that tells its payload. -/
def preimage : WalPayload → Bytes
  | .commit commitOrdinal body => ascii "commit" ++ u64Bytes commitOrdinal.raw ++ body
  | .nonceFloor domain ceiling =>
    ascii "nonce_floor" ++ [domain.recordTag] ++ u64Bytes ceiling.raw
  | .incarnationSealed incarnationId =>
    ascii "incarnation" ++ u64Bytes incarnationId.openOrdinal.raw ++
      incarnationId.entropy.bytes.bytes

end WalPayload

/-- The bytes `hash_record` feeds to the hash function. -/
def recordPreimage (predecessorHash : WalHash) (payload : WalPayload) : Bytes :=
  ascii "kyzo.wal.record.v1" ++ predecessorHash.bytes ++ payload.preimage

/-- `hash_record`, over the hash function of the `sha2` crate. -/
def hashRecord (sha : Bytes → Bytes32) (predecessorHash : WalHash) (payload : WalPayload) :
    WalHash :=
  sha (recordPreimage predecessorHash payload)

structure WalRecord where
  predecessorHash : WalHash
  payload : WalPayload
  recordHash : WalHash
  deriving DecidableEq

/-- `WalRecord::seal`. -/
def WalRecord.sealOver (sha : Bytes → Bytes32) (predecessorHash : WalHash)
    (payload : WalPayload) : WalRecord :=
  ⟨predecessorHash, payload, hashRecord sha predecessorHash payload⟩

structure WalSegment where
  storeId : StoreId
  fenceEpoch : FenceEpoch
  segmentIndex : UInt64
  records : List WalRecord
  deriving DecidableEq

inductive WalRefuse where
  /-- "WAL chain break: expected predecessor .., got ..". -/
  | chainBreak (expected got : WalHash)
  /-- "WAL segment index gap: expected .., got ..". -/
  | segmentGap (expected got : UInt64)
  /-- "WAL segment StoreId mismatch under replay". -/
  | storeIdMismatch
  /-- "WAL record hash does not match sealed payload". -/
  | recordHashMismatch
  deriving DecidableEq

namespace WalSegment

/-- `WalSegment::open`. -/
def openAt (storeId : StoreId) (fenceEpoch : FenceEpoch) (segmentIndex : UInt64) : WalSegment :=
  ⟨storeId, fenceEpoch, segmentIndex, []⟩

def terminalHash (s : WalSegment) : WalHash :=
  (s.records.getLast?.map WalRecord.recordHash).getD genesisPredecessor

def append (s : WalSegment) (record : WalRecord) : Except WalRefuse WalSegment :=
  let expected := s.terminalHash
  if record.predecessorHash ≠ expected then
    .error (.chainBreak expected record.predecessorHash)
  else .ok { s with records := s.records ++ [record] }

end WalSegment

/-! ## Replay -/

structure WalFloors where
  highestIncarnation : Option IncarnationId
  commitNonceCeiling : DomainCounter
  compactNonceCeiling : DomainCounter
  rotateNonceCeiling : DomainCounter
  highestCommitOrdinal : Option CommitOrdinal

def WalFloors.genesis : WalFloors := ⟨none, ⟨0⟩, ⟨0⟩, ⟨0⟩, none⟩

structure WalReplayState where
  floors : WalFloors
  commitBodies : List (CommitOrdinal × Bytes)
  finalHash : WalHash

def applyPayload (floors : WalFloors) (commitBodies : List (CommitOrdinal × Bytes)) :
    WalPayload → WalFloors × List (CommitOrdinal × Bytes)
  | .commit commitOrdinal body =>
    ({ floors with highestCommitOrdinal := some commitOrdinal },
      commitBodies ++ [(commitOrdinal, body)])
  | .nonceFloor .commit ceiling => ({ floors with commitNonceCeiling := ceiling }, commitBodies)
  | .nonceFloor .compact ceiling => ({ floors with compactNonceCeiling := ceiling }, commitBodies)
  | .nonceFloor .rotate ceiling => ({ floors with rotateNonceCeiling := ceiling }, commitBodies)
  | .incarnationSealed incarnationId =>
    ({ floors with highestIncarnation := some incarnationId }, commitBodies)

variable (sha : Bytes → Bytes32)

/-- The inner loop of `replay`, over the records of one segment.  The state's `finalHash` is the
loop's `pred`. -/
def replayRecords : WalReplayState → List WalRecord → Except WalRefuse WalReplayState
  | st, [] => .ok st
  | st, record :: records =>
    if record.predecessorHash ≠ st.finalHash then
      .error (.chainBreak st.finalHash record.predecessorHash)
    else if hashRecord sha record.predecessorHash record.payload ≠ record.recordHash then
      .error .recordHashMismatch
    else
      let applied := applyPayload st.floors st.commitBodies record.payload
      replayRecords ⟨applied.1, applied.2, record.recordHash⟩ records

/-- `u64::saturating_add(1)`. -/
def saturatingSucc (n : UInt64) : UInt64 := (checkedSucc n).getD n

/-- The outer loop of `replay`. -/
def replaySegments (storeId : StoreId) :
    UInt64 → WalReplayState → List WalSegment → Except WalRefuse WalReplayState
  | _, st, [] => .ok st
  | expectedIndex, st, segment :: segments =>
    if segment.storeId ≠ storeId then .error .storeIdMismatch
    else if segment.segmentIndex ≠ expectedIndex then
      .error (.segmentGap expectedIndex segment.segmentIndex)
    else do
      let st ← replayRecords sha st segment.records
      replaySegments storeId (saturatingSucc expectedIndex) st segments

def replay (storeId : StoreId) (segments : List WalSegment) : Except WalRefuse WalReplayState :=
  replaySegments sha storeId 0 ⟨.genesis, [], genesisPredecessor⟩ segments

end Kyzo

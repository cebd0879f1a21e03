import Kyzo.Store.RootChain

/-!
# The sweep door

The one commit door of a store.  Intents are admitted to a queue, or to the cohort of an open fsync
window, and sealed singly or as a cohort.  A durable seal mints the next commit ordinal and extends
the root chain and the WAL with it.  Each operation takes the door and gives back the door it leaves
together with its result, so that what a failing call has changed stays changed.
-/

namespace Kyzo

/-! ## Refusals -/

inductive SweepRefuse where
  | writeSessionDead
  | sessionStoreMismatch
  | authorityStoreMismatch
  | intentOrdinalExhausted
  | commitOrdinalExhausted
  | intentOrderRegression
  | fsyncWindowAlreadyOpen
  | fsyncWindowNotOpen
  | overlapCohortMismatch
  | emptyOverlapCohort

/-- `SweepSealFailure`, over the commit failures `ε` of the store's transactions. -/
inductive SweepSealFailure (ε : Type) where
  | sweep (refuse : SweepRefuse)
  | apply (failure : ε)
  | merkleChain (refuse : MerkleChainRefuse)
  | wal (refuse : WalRefuse)

def IntentOrdinal.successor (o : IntentOrdinal) : Except SweepRefuse IntentOrdinal :=
  match checkedSucc o.raw with
  | some raw => .ok ⟨raw⟩
  | none => .error .intentOrdinalExhausted

def CommitOrdinal.successor (o : CommitOrdinal) : Except SweepRefuse CommitOrdinal :=
  match checkedSucc o.raw with
  | some raw => .ok ⟨raw⟩
  | none => .error .commitOrdinalExhausted

/-! ## Carriers -/

structure Applied where
  storeId : StoreId
  fenceEpoch : FenceEpoch
  intentOrdinal : IntentOrdinal

structure Committed where
  storeId : StoreId
  fenceEpoch : FenceEpoch
  commitOrdinal : CommitOrdinal

structure AdmittedIntent where
  intentOrdinal : IntentOrdinal
  storeId : StoreId
  fenceEpoch : FenceEpoch
  incarnationId : IncarnationId
  deriving DecidableEq

structure OverlapBatch where
  members : List IntentOrdinal
  commitOrdinals : List CommitOrdinal

inductive FsyncWindow where
  | closed
  | opened
  deriving DecidableEq

structure SweepSession where
  storeId : StoreId
  fenceEpoch : FenceEpoch
  incarnationId : IncarnationId
  deriving DecidableEq

structure WriteAuthority where
  tokenId : Bytes32
  storeId : StoreId

inductive StableCommitCap where
  | nativeFsyncProof
  | platformTransactionProof

/-- A `WriteTx`: what its two kinds of commit return. -/
structure WriteTx (ε : Type) where
  commit : Except ε Unit
  commitDurable : Except ε Unit

variable {ε : Type}

/-- The barrier of an arm, by which a transaction is applied. -/
def StableCommitCap.barrier (cap : StableCommitCap) (tx : WriteTx ε) : Except ε Unit :=
  match cap with
  | .nativeFsyncProof => tx.commitDurable
  | .platformTransactionProof => tx.commitDurable

@[simp] lemma StableCommitCap.barrier_eq (cap : StableCommitCap) (tx : WriteTx ε) :
    cap.barrier tx = tx.commitDurable := by
  rcases cap with _ | _ <;> rfl

/-- What has passed the door, in order: the intents admitted, those noted as sealed, and the
ordinals minted.  No operation reads it. -/
structure SweepHistory where
  admitted : List AdmittedIntent
  sealedIntents : List IntentOrdinal
  minted : List CommitOrdinal

/-- `SweepDoor`, with its history. -/
structure SweepDoor where
  storeId : StoreId
  fenceEpoch : FenceEpoch
  session : SweepSession
  writeAuthority : WriteAuthority
  stableCommitCap : StableCommitCap
  queue : List AdmittedIntent
  nextIntent : IntentOrdinal
  lastSealedIntent : Option IntentOrdinal
  highestCommit : CommitOrdinal
  walTip : WalHash
  walSegment : WalSegment
  rootChain : RootChain
  lastDurableCut : Option DurableCommitCut
  fsyncWindow : FsyncWindow
  overlapCohort : List AdmittedIntent
  lastOverlapBatch : Option OverlapBatch
  history : SweepHistory

namespace SweepDoor

/-- `SweepDoor::open`. -/
def openDoor (storeId : StoreId) (fenceEpoch : FenceEpoch) (session : SweepSession)
    (writeAuthority : WriteAuthority) (stableCommitCap : StableCommitCap) :
    Except SweepRefuse SweepDoor :=
  if session.storeId ≠ storeId then .error .sessionStoreMismatch
  else if writeAuthority.storeId ≠ storeId then .error .authorityStoreMismatch
  else if session.fenceEpoch ≠ fenceEpoch then .error .writeSessionDead
  else .ok {
    storeId, fenceEpoch, session, writeAuthority, stableCommitCap
    queue := []
    nextIntent := ⟨0⟩
    lastSealedIntent := none
    highestCommit := ⟨0⟩
    walTip := genesisPredecessor
    walSegment := .openAt storeId fenceEpoch 0
    rootChain := .empty
    lastDurableCut := none
    fsyncWindow := .closed
    overlapCohort := []
    lastOverlapBatch := none
    history := ⟨[], [], []⟩ }

/-! ## Checks -/

variable (sha : Bytes → Bytes32) (door : SweepDoor) (incarnationId : IncarnationId)
  (current : SweepSession)

def recheckSession : Except SweepRefuse Unit :=
  if current ≠ door.session then .error .writeSessionDead
  else if incarnationId ≠ current.incarnationId ∨ current.fenceEpoch ≠ door.fenceEpoch ∨
      current.storeId ≠ door.storeId then .error .writeSessionDead
  else .ok ()

def checkIntentOrder (intentOrdinal : IntentOrdinal) : Except SweepRefuse Unit :=
  match door.lastSealedIntent with
  | some last =>
    if intentOrdinal.raw ≤ last.raw then .error .intentOrderRegression else .ok ()
  | none => .ok ()

def prepareSeal (intent : AdmittedIntent) (current : SweepSession) :
    Except (SweepSealFailure ε) Unit := do
  (door.recheckSession intent.incarnationId current).mapError .sweep
  if intent.storeId ≠ door.storeId then .error (.sweep .sessionStoreMismatch)
  else if intent.fenceEpoch ≠ current.fenceEpoch then .error (.sweep .writeSessionDead)
  else (door.checkIntentOrder intent.intentOrdinal).mapError .sweep

/-! ## Operations -/

/-- `admit`. -/
def admitIntent : SweepDoor × Except SweepRefuse AdmittedIntent :=
  match door.recheckSession incarnationId current with
  | .error e => (door, .error e)
  | .ok () =>
    let intentOrdinal := door.nextIntent
    match intentOrdinal.successor with
    | .error e => (door, .error e)
    | .ok next =>
      let intent := ⟨intentOrdinal, door.storeId, current.fenceEpoch, incarnationId⟩
      let door := { door with
        nextIntent := next
        history.admitted := door.history.admitted ++ [intent] }
      match door.fsyncWindow with
      | .opened => ({ door with overlapCohort := door.overlapCohort ++ [intent] }, .ok intent)
      | .closed => ({ door with queue := door.queue ++ [intent] }, .ok intent)

def beginFsyncWindow : SweepDoor × Except SweepRefuse Unit :=
  match door.recheckSession incarnationId current with
  | .error e => (door, .error e)
  | .ok () =>
    if door.fsyncWindow = .opened then (door, .error .fsyncWindowAlreadyOpen)
    else ({ door with queue := [], overlapCohort := door.overlapCohort ++ door.queue,
                      fsyncWindow := .opened }, .ok ())

def noteSealedIntent (intentOrdinal : IntentOrdinal) : SweepDoor :=
  { door with
    lastSealedIntent := some intentOrdinal
    history.sealedIntents := door.history.sealedIntents ++ [intentOrdinal] }

def mintCommittedAfterBarrier (intentOrdinal : IntentOrdinal)
    (contentRoot : StateRoot) : SweepDoor × Except (SweepSealFailure ε) Committed :=
  let door := door.noteSealedIntent intentOrdinal
  match door.highestCommit.successor with
  | .error e => (door, .error (.sweep e))
  | .ok commitOrdinal =>
    let door := { door with highestCommit := commitOrdinal }
    let chained := ChainedStateRoot.mint sha door.storeId door.fenceEpoch commitOrdinal
      contentRoot door.rootChain.priorRoot .ordinary
    match door.rootChain.append chained with
    | .error e => (door, .error (.merkleChain e))
    | .ok rootChain =>
      let door := { door with rootChain }
      let record := WalRecord.sealOver sha door.walTip
        (.commit commitOrdinal chained.root.digest.bytes)
      match door.walSegment.append record with
      | .error e => (door, .error (.wal e))
      | .ok walSegment =>
        let door := { door with walSegment, walTip := record.recordHash }
        let door := { door with
          lastDurableCut := some (.compose sha chained door.walTip)
          history.minted := door.history.minted ++ [commitOrdinal] }
        (door, .ok ⟨door.storeId, door.fenceEpoch, commitOrdinal⟩)

/-- `seal`. -/
def sealApplied (intent : AdmittedIntent) (tx : WriteTx ε)
    (current : SweepSession) : SweepDoor × Except (SweepSealFailure ε) Applied :=
  match door.prepareSeal intent current with
  | .error e => (door, .error e)
  | .ok () =>
    match tx.commit with
    | .error e => (door, .error (.apply e))
    | .ok () =>
      let door := door.noteSealedIntent intent.intentOrdinal
      (door, .ok ⟨door.storeId, door.fenceEpoch, intent.intentOrdinal⟩)

def sealDurable (intent : AdmittedIntent) (tx : WriteTx ε)
    (contentRoot : StateRoot) (current : SweepSession) :
    SweepDoor × Except (SweepSealFailure ε) Committed :=
  if door.fsyncWindow = .opened then (door, .error (.sweep .fsyncWindowAlreadyOpen))
  else
    match door.prepareSeal intent current with
    | .error e => (door, .error e)
    | .ok () =>
      match door.stableCommitCap.barrier tx with
      | .error e => (door, .error (.apply e))
      | .ok () =>
        match door.mintCommittedAfterBarrier sha intent.intentOrdinal contentRoot with
        | (door, .error e) => (door, .error e)
        | (door, .ok committed) =>
          ({ door with
              lastOverlapBatch := some ⟨[intent.intentOrdinal], [committed.commitOrdinal]⟩ },
            .ok committed)

/-- The minting loop of `seal_durable_overlap_batch`. -/
def mintAll : SweepDoor → List (AdmittedIntent × StateRoot) →
    SweepDoor × Except (SweepSealFailure ε) (List Committed)
  | door, [] => (door, .ok [])
  | door, (intent, contentRoot) :: cohort =>
    match door.mintCommittedAfterBarrier sha intent.intentOrdinal contentRoot with
    | (door, .error e) => (door, .error e)
    | (door, .ok proof) =>
      match mintAll door cohort with
      | (door, .error e) => (door, .error e)
      | (door, .ok proofs) => (door, .ok (proof :: proofs))

def sealDurableOverlapBatch (work : List (WriteTx ε × StateRoot)) (current : SweepSession) :
    SweepDoor × Except (SweepSealFailure ε) (OverlapBatch × List Committed) :=
  if door.fsyncWindow ≠ .opened then (door, .error (.sweep .fsyncWindowNotOpen))
  else if work.length ≠ door.overlapCohort.length then
    (door, .error (.sweep .overlapCohortMismatch))
  else if door.overlapCohort = [] then (door, .error (.sweep .emptyOverlapCohort))
  else
    match door.overlapCohort.forM fun intent => door.prepareSeal intent current with
    | .error e => (door, .error e)
    | .ok () =>
      let cohort := door.overlapCohort
      let door := { door with overlapCohort := [] }
      match (work.map Prod.fst).forM fun tx => door.stableCommitCap.barrier tx with
      | .error e => ({ door with fsyncWindow := .closed }, .error (.apply e))
      | .ok () =>
        match mintAll sha door (cohort.zip (work.map Prod.snd)) with
        | (door, .error e) => (door, .error e)
        | (door, .ok committed) =>
          let batch : OverlapBatch :=
            ⟨cohort.map AdmittedIntent.intentOrdinal, committed.map Committed.commitOrdinal⟩
          ({ door with lastOverlapBatch := some batch, fsyncWindow := .closed },
            .ok (batch, committed))

end SweepDoor

/-! ## Runs -/

/-- A call of one of the door's operations. -/
inductive SweepOp (ε : Type) where
  | admitIntent (incarnationId : IncarnationId) (current : SweepSession)
  | beginFsyncWindow (incarnationId : IncarnationId) (current : SweepSession)
  | sealApplied (intent : AdmittedIntent) (tx : WriteTx ε) (current : SweepSession)
  | sealDurable (intent : AdmittedIntent) (tx : WriteTx ε) (contentRoot : StateRoot)
      (current : SweepSession)
  | sealDurableOverlapBatch (work : List (WriteTx ε × StateRoot)) (current : SweepSession)

/-- The live session that a call presents. -/
def SweepOp.current : SweepOp ε → SweepSession
  | .admitIntent _ current | .beginFsyncWindow _ current | .sealApplied _ _ current
  | .sealDurable _ _ _ current | .sealDurableOverlapBatch _ current => current

namespace SweepDoor

variable (sha : Bytes → Bytes32)

/-- The door that a call leaves. -/
def step (door : SweepDoor) : SweepOp ε → SweepDoor
  | .admitIntent incarnationId current => (door.admitIntent incarnationId current).1
  | .beginFsyncWindow incarnationId current => (door.beginFsyncWindow incarnationId current).1
  | .sealApplied intent tx current => (door.sealApplied intent tx current).1
  | .sealDurable intent tx contentRoot current =>
    (door.sealDurable sha intent tx contentRoot current).1
  | .sealDurableOverlapBatch work current => (door.sealDurableOverlapBatch sha work current).1

/-- The door that a sequence of calls leaves. -/
def run (door : SweepDoor) (ops : List (SweepOp ε)) : SweepDoor := ops.foldl (step sha) door

end SweepDoor

end Kyzo

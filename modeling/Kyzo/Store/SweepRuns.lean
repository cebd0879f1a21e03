import Kyzo.Store.Sweep
import Kyzo.Store.WalChain

/-!
# Runs of the sweep door

What every run of the door keeps: the two chains and the cut over their tips, the order in which
intents are sealed, and the queue with the cohort of the open window.
-/

namespace Kyzo

open List

variable (sha : Bytes → Bytes32)

/-- The WAL payload of a link. -/
def ChainedStateRoot.payload (link : ChainedStateRoot) : WalPayload :=
  .commit link.commitOrdinal link.root.digest.bytes

lemma getLast?_sealAll (pred : WalHash) (payloads : List WalPayload) :
    ((sealAll sha pred payloads).getLast?.map WalRecord.recordHash).getD pred =
      chainHash (hashRecord sha) pred payloads := by
  rw [← getLast?_map, map_recordHash_sealAll, getLast?_chainDigests]

namespace SweepDoor

/-! ## The chains -/

/-- The ordinals minted count up from one, a link and a WAL record stand for each, and the cut
composes the two tips. -/
structure Chains (door : SweepDoor) : Prop where
  minted : door.history.minted.map (·.raw.toNat) = range' 1 door.highestCommit.raw.toNat
  ordinals : door.rootChain.links.map ChainedStateRoot.commitOrdinal = door.history.minted
  linked : RootChain.Linked genesisRoot door.rootChain.links
  segment : door.walSegment = ⟨door.storeId, door.fenceEpoch, 0,
    sealAll sha genesisPredecessor (door.rootChain.links.map ChainedStateRoot.payload)⟩
  tip : door.walTip = chainHash (hashRecord sha) genesisPredecessor
    (door.rootChain.links.map ChainedStateRoot.payload)
  cut : door.lastDurableCut =
    door.rootChain.links.getLast?.map fun link => .compose sha link door.walTip

variable (door : SweepDoor)

/-- The link that the next commit mints. -/
def nextLink (contentRoot : StateRoot) (commitOrdinal : CommitOrdinal) : ChainedStateRoot :=
  .mint sha door.storeId door.fenceEpoch commitOrdinal contentRoot door.rootChain.priorRoot
    .ordinary

/-- The door after a commit has been minted. -/
def afterMint (intentOrdinal : IntentOrdinal) (contentRoot : StateRoot)
    (commitOrdinal : CommitOrdinal) : SweepDoor :=
  let link := door.nextLink sha contentRoot commitOrdinal
  let record := WalRecord.sealOver sha door.walTip link.payload
  { door with
    lastSealedIntent := some intentOrdinal
    highestCommit := commitOrdinal
    walTip := record.recordHash
    walSegment := { door.walSegment with records := door.walSegment.records ++ [record] }
    rootChain := ⟨door.rootChain.links ++ [link]⟩
    lastDurableCut := some (.compose sha link record.recordHash)
    history := ⟨door.history.admitted, door.history.sealedIntents ++ [intentOrdinal],
      door.history.minted ++ [commitOrdinal]⟩ }

variable {sha} {ε : Type} {door : SweepDoor}

section

variable (h : door.Chains sha) (intentOrdinal : IntentOrdinal)
include h

/-- **Minting** refuses only when no ordinal is left. -/
theorem mintCommittedAfterBarrier_eq (contentRoot : StateRoot) :
    door.mintCommittedAfterBarrier (ε := ε) sha intentOrdinal contentRoot =
      match checkedSucc door.highestCommit.raw with
      | none =>
        (door.noteSealedIntent intentOrdinal, .error (.sweep .commitOrdinalExhausted))
      | some raw =>
        (door.afterMint sha intentOrdinal contentRoot ⟨raw⟩,
          .ok ⟨door.storeId, door.fenceEpoch, ⟨raw⟩⟩) := by
  have hterminal : door.walTip = door.walSegment.terminalHash := by
    rw [h.tip, h.segment]
    exact (getLast?_sealAll sha _ _).symm
  rw [mintCommittedAfterBarrier, CommitOrdinal.successor]
  simp only [noteSealedIntent]
  rcases checkedSucc door.highestCommit.raw with _ | raw
  · rfl
  · have hlink : door.rootChain.append (.mint sha door.storeId door.fenceEpoch ⟨raw⟩ contentRoot
        door.rootChain.priorRoot .ordinary) =
          .ok ⟨door.rootChain.links ++ [door.nextLink sha contentRoot ⟨raw⟩]⟩ :=
      RootChain.append_eq_ok.mpr ⟨rfl, rfl⟩
    have hwal : door.walSegment.append (.sealOver sha door.walTip (.commit ⟨raw⟩
        (ChainedStateRoot.mint sha door.storeId door.fenceEpoch ⟨raw⟩ contentRoot
          door.rootChain.priorRoot .ordinary).root.digest.bytes)) =
        .ok { door.walSegment with records := door.walSegment.records ++
          [.sealOver sha door.walTip (door.nextLink sha contentRoot ⟨raw⟩).payload] } :=
      WalSegment.append_eq_ok.mpr ⟨hterminal, rfl⟩
    simp only [hlink, hwal]
    rfl

lemma Chains.afterMint (contentRoot : StateRoot) {raw : UInt64}
    (hraw : checkedSucc door.highestCommit.raw = some raw) :
    (door.afterMint sha intentOrdinal contentRoot ⟨raw⟩).Chains sha where
  minted := by
    rw [SweepDoor.afterMint, map_append, h.minted]
    rw [checkedSucc_eq_some.mp hraw, range'_1_concat, Nat.add_comm 1,
      ← checkedSucc_eq_some.mp hraw]
    rfl
  ordinals := by
    rw [SweepDoor.afterMint, map_append, h.ordinals]
    rfl
  linked := RootChain.linked_concat h.linked rfl
  segment := by
    simp only [SweepDoor.afterMint, map_append, sealAll_append]
    rw [h.segment, h.tip]
    rfl
  tip := by
    simp only [SweepDoor.afterMint, map_append, chainHash_append]
    rw [h.tip]
    rfl
  cut := by
    simp [SweepDoor.afterMint]

lemma Chains.noteSealedIntent : (door.noteSealedIntent intentOrdinal).Chains sha :=
  ⟨h.minted, h.ordinals, h.linked, h.segment, h.tip, h.cut⟩

end

/-! ## The order of seals -/

/-- Intents are sealed in increasing order, and the door remembers the last. -/
structure SealedInOrder (door : SweepDoor) : Prop where
  increasing : door.history.sealedIntents.Pairwise (·.raw < ·.raw)
  last : door.lastSealedIntent = door.history.sealedIntents.getLast?

/-- An intent comes after all that were sealed. -/
def Unsealed (intentOrdinal : IntentOrdinal) : Prop :=
  ∀ last ∈ door.lastSealedIntent, last.raw < intentOrdinal.raw

variable {intentOrdinal : IntentOrdinal}

lemma SealedInOrder.noteSealedIntent (h : door.SealedInOrder)
    (hnew : door.Unsealed intentOrdinal) : (door.noteSealedIntent intentOrdinal).SealedInOrder where
  increasing := by
    refine pairwise_append.mpr ⟨h.increasing, pairwise_singleton _ _, ?_⟩
    intro o ho o' ho'
    obtain rfl := mem_singleton.mp ho'
    obtain ⟨front, last, hfront⟩ := eq_nil_or_concat door.history.sealedIntents |>.resolve_left
      (ne_nil_of_mem ho)
    rw [concat_eq_append] at hfront
    have hlast : last.raw < o'.raw := hnew last (by rw [h.last, hfront]; simp)
    have hincreasing := h.increasing
    rw [hfront] at ho hincreasing
    rcases mem_append.mp ho with ho | ho
    · exact UInt64.lt_trans ((pairwise_append.mp hincreasing).2.2 o ho last (by simp)) hlast
    · rwa [mem_singleton.mp ho]
  last := by simp [SweepDoor.noteSealedIntent]

/-! ## The queue and the cohort -/

/-- What the chains and the seals leave alone. -/
structure QueueView where
  storeId : StoreId
  fenceEpoch : FenceEpoch
  session : SweepSession
  queue : List AdmittedIntent
  nextIntent : IntentOrdinal
  fsyncWindow : FsyncWindow
  overlapCohort : List AdmittedIntent
  admitted : List AdmittedIntent

/-- The queue side of a door. -/
def view : QueueView where
  storeId := door.storeId
  fenceEpoch := door.fenceEpoch
  session := door.session
  queue := door.queue
  nextIntent := door.nextIntent
  fsyncWindow := door.fsyncWindow
  overlapCohort := door.overlapCohort
  admitted := door.history.admitted

/-- The intents that wait, oldest first. -/
def QueueView.waiting (v : QueueView) : List AdmittedIntent := v.overlapCohort ++ v.queue

/-- Ordinals count the admissions and all intents are of the door's session.  The waiting intents
are among the admitted ones and in their order, and the queue waits only while no window is open. -/
structure QueueView.Kept (v : QueueView) : Prop where
  session : v.session.storeId = v.storeId ∧ v.session.fenceEpoch = v.fenceEpoch
  admitted : v.admitted.map (·.intentOrdinal.raw.toNat) = range v.nextIntent.raw.toNat
  own : ∀ i ∈ v.admitted, i.storeId = v.storeId ∧ i.fenceEpoch = v.fenceEpoch ∧
    i.incarnationId = v.session.incarnationId
  subset : ∀ i ∈ v.waiting, i ∈ v.admitted
  increasing : v.waiting.Pairwise (·.intentOrdinal.raw < ·.intentOrdinal.raw)
  closed : v.fsyncWindow = .closed → v.overlapCohort = []
  opened : v.fsyncWindow = .opened → v.queue = []

/-- Everything a run keeps. -/
structure Kept (sha : Bytes → Bytes32) (door : SweepDoor) : Prop where
  chains : door.Chains sha
  inOrder : door.SealedInOrder
  queue : door.view.Kept

/-! ## Minting -/

lemma mintCommittedAfterBarrier_keeps (hchains : door.Chains sha) (horder : door.SealedInOrder)
    (hnew : door.Unsealed intentOrdinal) (contentRoot : StateRoot) :
    let door' := (door.mintCommittedAfterBarrier (ε := ε) sha intentOrdinal contentRoot).1
    door'.Chains sha ∧ door'.SealedInOrder ∧ door'.view = door.view ∧
      door'.lastSealedIntent = some intentOrdinal := by
  have hnote := horder.noteSealedIntent hnew
  rw [mintCommittedAfterBarrier_eq hchains]
  rcases hraw : checkedSucc door.highestCommit.raw with _ | raw
  · exact ⟨hchains.noteSealedIntent _, hnote, rfl, rfl⟩
  · exact ⟨hchains.afterMint _ _ hraw, ⟨hnote.increasing, hnote.last⟩, rfl, rfl⟩

lemma mintAll_keeps {cohort : List (AdmittedIntent × StateRoot)} (hchains : door.Chains sha)
    (horder : door.SealedInOrder)
    (hincreasing : cohort.Pairwise (·.1.intentOrdinal.raw < ·.1.intentOrdinal.raw))
    (hnew : ∀ e ∈ cohort, door.Unsealed e.1.intentOrdinal) :
    let door' := (door.mintAll (ε := ε) sha cohort).1
    door'.Chains sha ∧ door'.SealedInOrder ∧ door'.view = door.view := by
  induction cohort generalizing door with
  | nil => exact ⟨hchains, horder, rfl⟩
  | cons first cohort ih =>
    obtain ⟨intent, contentRoot⟩ := first
    obtain ⟨hfirst, hrest⟩ := pairwise_cons.mp hincreasing
    have hkeeps := mintCommittedAfterBarrier_keeps (ε := ε) hchains horder
      (hnew (intent, contentRoot) (.head _)) contentRoot
    rw [mintAll]
    generalize door.mintCommittedAfterBarrier sha intent.intentOrdinal contentRoot =
      minted at hkeeps ⊢
    obtain ⟨door', e | proof⟩ := minted
    · exact ⟨hkeeps.1, hkeeps.2.1, hkeeps.2.2.1⟩
    · obtain ⟨hchains', horder', hview, hlast⟩ := hkeeps
      have hnew' : ∀ e ∈ cohort, door'.Unsealed e.1.intentOrdinal := by
        intro e he last hmem
        cases hlast.symm.trans hmem
        exact hfirst e he
      have hrun := ih hchains' horder' hrest hnew'
      simp only
      generalize door'.mintAll sha cohort = rest at hrun ⊢
      obtain ⟨door'', e | proofs⟩ := rest <;>
        exact ⟨hrun.1, hrun.2.1, hrun.2.2.trans hview⟩

/-! ## Checks -/

variable {current : SweepSession}

lemma recheckSession_eq_ok {incarnationId : IncarnationId} :
    door.recheckSession incarnationId current = .ok () ↔
      current = door.session ∧ incarnationId = current.incarnationId ∧
        current.fenceEpoch = door.fenceEpoch ∧ current.storeId = door.storeId := by
  rw [recheckSession]
  split_ifs with hsession hask
  · exact iff_of_false (fun h => by cases h) fun h => hsession h.1
  · refine iff_of_false (fun h => by cases h) fun h => ?_
    rcases hask with hask | hask | hask
    · exact hask h.2.1
    · exact hask h.2.2.1
    · exact hask h.2.2.2
  · simp only [not_or, not_not] at hask
    exact iff_of_true rfl ⟨not_not.mp hsession, hask⟩

lemma checkIntentOrder_eq_ok :
    door.checkIntentOrder intentOrdinal = .ok () ↔ door.Unsealed intentOrdinal := by
  rw [checkIntentOrder, Unsealed]
  rcases door.lastSealedIntent with _ | last
  · simp
  · simp only [Option.mem_some_iff, forall_eq']
    split_ifs with hle
    · exact iff_of_false (fun h => by cases h) (UInt64.not_lt.mpr hle)
    · exact iff_of_true rfl (UInt64.not_le.mp hle)

/-- **What may be sealed.** -/
theorem prepareSeal_eq_ok {intent : AdmittedIntent} :
    door.prepareSeal (ε := ε) intent current = .ok () ↔
      door.recheckSession intent.incarnationId current = .ok () ∧
        intent.storeId = door.storeId ∧ intent.fenceEpoch = current.fenceEpoch ∧
        door.Unsealed intent.intentOrdinal := by
  rw [prepareSeal, bind_eq_ok, ← checkIntentOrder_eq_ok]
  simp only [mapError_eq_ok]
  split_ifs with hstore hepoch
  · exact iff_of_false (fun ⟨_, _, h⟩ => by cases h) fun h => hstore h.2.1
  · exact iff_of_false (fun ⟨_, _, h⟩ => by cases h) fun h => hepoch h.2.2.1
  · rw [mapError_eq_ok]
    exact ⟨fun ⟨_, hsession, h⟩ => ⟨hsession, not_not.mp hstore, not_not.mp hepoch, h⟩,
      fun h => ⟨(), h.1, h.2.2.2⟩⟩

/-! ## What each operation does -/

section Cases

variable (sha) (door)

section

variable (incarnationId : IncarnationId) (current : SweepSession)

lemma admitIntent_cases : (door.admitIntent incarnationId current).1 = door ∨
      door.recheckSession incarnationId current = .ok () ∧
      ∃ next intent, checkedSucc door.nextIntent.raw = some next ∧
        intent = (⟨door.nextIntent, door.storeId, current.fenceEpoch, incarnationId⟩ :
          AdmittedIntent) ∧
        (door.admitIntent incarnationId current).2 = .ok intent ∧
        ((door.fsyncWindow = .opened ∧ (door.admitIntent incarnationId current).1 = { door with
            nextIntent := ⟨next⟩
            history.admitted := door.history.admitted ++ [intent]
            overlapCohort := door.overlapCohort ++ [intent] }) ∨
        (door.fsyncWindow = .closed ∧ (door.admitIntent incarnationId current).1 = { door with
            nextIntent := ⟨next⟩
            history.admitted := door.history.admitted ++ [intent]
            queue := door.queue ++ [intent] })) := by
  simp only [admitIntent, IntentOrdinal.successor]
  rcases door.recheckSession incarnationId current with e | ⟨⟩
  · exact .inl rfl
  · rcases checkedSucc door.nextIntent.raw with _ | next
    · exact .inl rfl
    · rcases door.fsyncWindow with _ | _
      · simp
      · simp

lemma beginFsyncWindow_cases : (door.beginFsyncWindow incarnationId current).1 = door ∨
      door.recheckSession incarnationId current = .ok () ∧ door.fsyncWindow = .closed ∧
      (door.beginFsyncWindow incarnationId current).1 =
        { door with queue := [], overlapCohort := door.overlapCohort ++ door.queue,
                    fsyncWindow := .opened } := by
  rw [beginFsyncWindow]
  rcases door.recheckSession incarnationId current with e | ⟨⟩
  · exact .inl rfl
  · rcases hwindow : door.fsyncWindow with _ | _
    · exact .inr ⟨rfl, rfl, rfl⟩
    · exact .inl rfl

end

lemma sealApplied_cases (intent : AdmittedIntent) (tx : WriteTx ε) (current : SweepSession) :
    (door.sealApplied intent tx current).1 = door ∨
      door.prepareSeal (ε := ε) intent current = .ok () ∧
      (door.sealApplied intent tx current).1 = door.noteSealedIntent intent.intentOrdinal := by
  rw [sealApplied]
  rcases door.prepareSeal intent current with e | ⟨⟩
  · exact .inl rfl
  · rcases tx.commit with e | ⟨⟩
    · exact .inl rfl
    · exact .inr ⟨rfl, rfl⟩

lemma sealDurable_cases (intent : AdmittedIntent) (tx : WriteTx ε) (contentRoot : StateRoot)
    (current : SweepSession) :
    (door.sealDurable sha intent tx contentRoot current).1 = door ∨
      door.prepareSeal (ε := ε) intent current = .ok () ∧
      ∃ batch, (door.sealDurable sha intent tx contentRoot current).1 =
        { (door.mintCommittedAfterBarrier (ε := ε) sha intent.intentOrdinal contentRoot).1 with
          lastOverlapBatch := batch } := by
  rw [sealDurable]
  split_ifs with hwindow
  · exact .inl rfl
  · rcases door.prepareSeal intent current with e | ⟨⟩
    · exact .inl rfl
    · rcases door.stableCommitCap.barrier tx with e | ⟨⟩
      · exact .inl rfl
      · refine .inr ⟨rfl, ?_⟩
        rcases door.mintCommittedAfterBarrier sha intent.intentOrdinal contentRoot with
          ⟨door', e | committed⟩
        · exact ⟨_, rfl⟩
        · exact ⟨_, rfl⟩

lemma sealDurableOverlapBatch_cases (work : List (WriteTx ε × StateRoot)) (current : SweepSession) :
    (door.sealDurableOverlapBatch sha work current).1 = door ∨
      door.overlapCohort ≠ [] ∧ work.length = door.overlapCohort.length ∧
      door.fsyncWindow = .opened ∧
      (∀ intent ∈ door.overlapCohort, door.prepareSeal (ε := ε) intent current = .ok ()) ∧
      ((door.sealDurableOverlapBatch sha work current).1 =
        { door with overlapCohort := [], fsyncWindow := .closed } ∨
      ∃ batch window, (door.sealDurableOverlapBatch sha work current).1 =
        { (mintAll (ε := ε) sha { door with overlapCohort := [] }
            (door.overlapCohort.zip (work.map Prod.snd))).1 with
          lastOverlapBatch := batch, fsyncWindow := window }) := by
  rw [sealDurableOverlapBatch]
  split_ifs with hwindow hlen hempty
  · exact .inl rfl
  · exact .inl rfl
  · exact .inl rfl
  · rcases hprepare : door.overlapCohort.forM
      fun intent => door.prepareSeal intent current with e | ⟨⟩
    · exact .inl rfl
    · refine .inr ⟨hempty, not_not.mp hlen, not_not.mp hwindow, forM_eq_ok.mp hprepare, ?_⟩
      simp only
      rcases (work.map Prod.fst).forM fun tx => door.stableCommitCap.barrier tx with e | ⟨⟩
      · exact .inl rfl
      · refine .inr ?_
        rcases mintAll sha { door with overlapCohort := [] }
          (door.overlapCohort.zip (work.map Prod.snd)) with ⟨door', e | committed⟩
        · exact ⟨door'.lastOverlapBatch, door'.fsyncWindow, rfl⟩
        · exact ⟨_, _, rfl⟩

end Cases

/-! ## Steps -/

variable {v : QueueView} {cohort queue : List AdmittedIntent}

lemma QueueView.Kept.admitIntent (h : v.Kept) {next : UInt64}
    (hnext : checkedSucc v.nextIntent.raw = some next) (hwaiting : cohort ++ queue = v.waiting ++
      [⟨v.nextIntent, v.storeId, v.session.fenceEpoch, v.session.incarnationId⟩])
    (hclosed : v.fsyncWindow = .closed → cohort = [])
    (hopened : v.fsyncWindow = .opened → queue = []) : QueueView.Kept { v with
      nextIntent := ⟨next⟩
      admitted := v.admitted ++
        [⟨v.nextIntent, v.storeId, v.session.fenceEpoch, v.session.incarnationId⟩]
      overlapCohort := cohort
      queue := queue } := by
  constructor
  case session => exact h.session
  case closed => exact hclosed
  case opened => exact hopened
  case admitted =>
    rw [map_append, h.admitted, checkedSucc_eq_some.mp hnext, range_succ]
    rfl
  case own =>
    exact forall_mem_append.mpr ⟨h.own, forall_mem_singleton.mpr ⟨rfl, h.session.2, rfl⟩⟩
  all_goals rw [waiting, hwaiting]
  case subset =>
    exact fun i hi => mem_append.mpr ((mem_append.mp hi).imp_left (h.subset i))
  case increasing =>
    refine pairwise_append.mpr ⟨h.increasing, pairwise_singleton _ _, ?_⟩
    intro i hi i' hi'
    rw [mem_singleton.mp hi']
    have hcount := mem_map_of_mem (f := fun i => i.intentOrdinal.raw.toNat) (h.subset i hi)
    rw [h.admitted] at hcount
    exact UInt64.lt_iff_toNat_lt.mpr (mem_range.mp hcount)

lemma QueueView.Kept.beginFsyncWindow (h : v.Kept) :
    QueueView.Kept { v with queue := [], overlapCohort := v.waiting, fsyncWindow := .opened } := by
  have hwaiting : v.waiting ++ [] = v.waiting := append_nil _
  constructor
  case session => exact h.session
  case admitted => exact h.admitted
  case closed => exact fun hw => nomatch hw
  case opened => exact fun _ => rfl
  case own => exact h.own
  all_goals rw [waiting, hwaiting]
  case subset => exact h.subset
  case increasing => exact h.increasing

lemma QueueView.Kept.takeCohort (h : v.Kept) (hopened : v.fsyncWindow = .opened)
    (window : FsyncWindow) :
    QueueView.Kept { v with overlapCohort := [], fsyncWindow := window } := by
  have hqueue := h.opened hopened
  have hwaiting : [] ++ v.queue = [] := hqueue
  constructor
  case session => exact h.session
  case admitted => exact h.admitted
  case closed => exact fun _ => rfl
  case opened => exact fun _ => hqueue
  case own => exact h.own
  all_goals rw [waiting, hwaiting]
  case subset => exact fun i hi => absurd hi not_mem_nil
  case increasing => exact .nil

lemma Kept.ofQueue (hchains : door.Chains sha) (horder : door.SealedInOrder)
    {next : IntentOrdinal} {window : FsyncWindow} {admitted : List AdmittedIntent}
    (batch : Option OverlapBatch)
    (hqueue : QueueView.Kept ⟨door.storeId, door.fenceEpoch, door.session, queue, next, window,
      cohort, admitted⟩) : Kept sha { door with
      queue := queue
      nextIntent := next
      fsyncWindow := window
      overlapCohort := cohort
      lastOverlapBatch := batch
      history.admitted := admitted } :=
  ⟨⟨hchains.minted, hchains.ordinals, hchains.linked, hchains.segment, hchains.tip, hchains.cut⟩,
    ⟨horder.increasing, horder.last⟩, hqueue⟩

section

variable (h : door.Kept sha)

include h

section

variable (incarnationId : IncarnationId) (current : SweepSession)

lemma Kept.admitIntent : (door.admitIntent incarnationId current).1.Kept sha := by
  rcases door.admitIntent_cases incarnationId current with
    hsame | ⟨hcheck, next, intent, hnext, rfl, -, hdoor⟩
  · rwa [hsame]
  · obtain ⟨rfl, rfl, -, -⟩ := recheckSession_eq_ok.mp hcheck
    rcases hdoor with ⟨hwindow, hdoor⟩ | ⟨hwindow, hdoor⟩
    · have hnone : door.queue = [] := h.queue.opened hwindow
      rw [hdoor]
      refine .ofQueue h.chains h.inOrder door.lastOverlapBatch (h.queue.admitIntent hnext ?_ ?_ ?_)
      · simp [QueueView.waiting, view, hnone]
      · exact fun hw => nomatch hwindow.symm.trans hw
      · exact fun _ => hnone
    · have hnone : door.overlapCohort = [] := h.queue.closed hwindow
      rw [hdoor]
      refine .ofQueue h.chains h.inOrder door.lastOverlapBatch (h.queue.admitIntent hnext ?_ ?_ ?_)
      · simp [QueueView.waiting, view, hnone]
      · exact fun _ => hnone
      · exact fun hw => nomatch hwindow.symm.trans hw

lemma Kept.beginFsyncWindow : (door.beginFsyncWindow incarnationId current).1.Kept sha := by
  rcases door.beginFsyncWindow_cases incarnationId current with hsame | ⟨-, -, hdoor⟩
  · rwa [hsame]
  · rw [hdoor]
    exact .ofQueue h.chains h.inOrder door.lastOverlapBatch h.queue.beginFsyncWindow

end

lemma Kept.sealApplied (intent : AdmittedIntent) (tx : WriteTx ε)
    (current : SweepSession) : (door.sealApplied intent tx current).1.Kept sha := by
  rcases door.sealApplied_cases intent tx current with hsame | ⟨hprepare, hdoor⟩
  · rwa [hsame]
  · rw [hdoor]
    exact ⟨h.chains.noteSealedIntent _,
      h.inOrder.noteSealedIntent (prepareSeal_eq_ok.mp hprepare).2.2.2, h.queue⟩

lemma Kept.sealDurable (intent : AdmittedIntent) (tx : WriteTx ε)
    (contentRoot : StateRoot) (current : SweepSession) :
    (door.sealDurable sha intent tx contentRoot current).1.Kept sha := by
  rcases sealDurable_cases sha door intent tx contentRoot current with
    hsame | ⟨hprepare, batch, hdoor⟩
  · rwa [hsame]
  · obtain ⟨hchains, horder, hview, -⟩ := mintCommittedAfterBarrier_keeps h.chains h.inOrder
      (prepareSeal_eq_ok.mp hprepare).2.2.2 contentRoot
    have hqueue := h.queue
    rw [← hview] at hqueue
    rw [hdoor]
    exact .ofQueue hchains horder batch hqueue

lemma Kept.sealDurableOverlapBatch (work : List (WriteTx ε × StateRoot)) (current : SweepSession) :
    (door.sealDurableOverlapBatch sha work current).1.Kept sha := by
  rcases sealDurableOverlapBatch_cases sha door work current with
    hsame | ⟨-, hlen, hwindow, hprepare, hdoor | ⟨batch, window, hdoor⟩⟩
  · rwa [hsame]
  · rw [hdoor]
    exact .ofQueue h.chains h.inOrder door.lastOverlapBatch (h.queue.takeCohort hwindow .closed)
  · -- The cohort is minted in its own order, above everything sealed before.
    have hempty : Kept sha { door with overlapCohort := [] } :=
      .ofQueue h.chains h.inOrder door.lastOverlapBatch
        (h.queue.takeCohort hwindow door.fsyncWindow)
    have hzip : (door.overlapCohort.zip (work.map Prod.snd)).map Prod.fst = door.overlapCohort :=
      map_fst_zip (by rw [length_map, hlen])
    have hcohort : (door.overlapCohort.zip (work.map Prod.snd)).Pairwise
        (·.1.intentOrdinal.raw < ·.1.intentOrdinal.raw) := by
      have hwaiting : ((door.overlapCohort.zip (work.map Prod.snd)).map Prod.fst).Pairwise
          (·.intentOrdinal.raw < ·.intentOrdinal.raw) := by
        rw [hzip]
        exact (pairwise_append.mp h.queue.increasing).1
      exact (pairwise_map (f := Prod.fst)).mp hwaiting
    obtain ⟨hchains, horder, hview⟩ := mintAll_keeps hempty.chains hempty.inOrder hcohort
      fun e he => (prepareSeal_eq_ok.mp (hprepare e.1 (of_mem_zip he).1)).2.2.2
    have hqueue : QueueView.Kept { (mintAll (ε := ε) sha { door with overlapCohort := [] }
        (door.overlapCohort.zip (work.map Prod.snd))).1.view with fsyncWindow := window } := by
      rw [hview]
      exact h.queue.takeCohort hwindow window
    rw [hdoor]
    exact .ofQueue hchains horder batch hqueue

/-- **Step.**  No call breaks what the door keeps. -/
theorem Kept.step (op : SweepOp ε) : (door.step sha op).Kept sha :=
  match op with
  | .admitIntent incarnationId current => h.admitIntent incarnationId current
  | .beginFsyncWindow incarnationId current => h.beginFsyncWindow incarnationId current
  | .sealApplied intent tx current => h.sealApplied intent tx current
  | .sealDurable intent tx contentRoot current => h.sealDurable intent tx contentRoot current
  | .sealDurableOverlapBatch work current => h.sealDurableOverlapBatch work current

/-- **Run.** -/
theorem Kept.run (ops : List (SweepOp ε)) : (door.run sha ops).Kept sha := by
  induction ops generalizing door with
  | nil => exact h
  | cons op ops ih => exact ih (h.step op)

end

lemma Kept.openDoor {storeId : StoreId} {fenceEpoch : FenceEpoch} {session : SweepSession}
    {authority : WriteAuthority} {cap : StableCommitCap}
    (h : SweepDoor.openDoor storeId fenceEpoch session authority cap = .ok door) :
    door.Kept sha := by
  unfold SweepDoor.openDoor at h
  split_ifs at h with hstore hauthority hepoch
  cases h
  exact ⟨⟨rfl, rfl, trivial, rfl, rfl, rfl⟩, ⟨.nil, rfl⟩,
    ⟨⟨not_not.mp hstore, not_not.mp hepoch⟩, rfl, fun i hi => absurd hi not_mem_nil,
      fun i hi => absurd hi not_mem_nil, .nil, fun _ => rfl, fun _ => rfl⟩⟩

lemma step_of_superseded {op : SweepOp ε} (h : op.current ≠ door.session) :
    door.step sha op = door := by
  have hdead : ∀ {incarnationId}, door.recheckSession incarnationId op.current ≠ .ok () :=
    fun hcheck => h (recheckSession_eq_ok.mp hcheck).1
  have hdead' : ∀ {intent}, door.prepareSeal (ε := ε) intent op.current ≠ .ok () :=
    fun hprepare => hdead (prepareSeal_eq_ok.mp hprepare).1
  rcases op with ⟨incarnationId, current⟩ | ⟨incarnationId, current⟩ | ⟨intent, tx, current⟩ |
    ⟨intent, tx, contentRoot, current⟩ | ⟨work, current⟩
  · exact (door.admitIntent_cases incarnationId current).resolve_right fun hcase => hdead hcase.1
  · exact (door.beginFsyncWindow_cases incarnationId current).resolve_right
      fun hcase => hdead hcase.1
  · exact (door.sealApplied_cases intent tx current).resolve_right fun hcase => hdead' hcase.1
  · exact (sealDurable_cases sha door intent tx contentRoot current).resolve_right
      fun hcase => hdead' hcase.1
  · refine (sealDurableOverlapBatch_cases sha door work current).resolve_right ?_
    rintro ⟨hne, -, -, hprepare, -⟩
    obtain ⟨intent, hintent⟩ := exists_mem_of_ne_nil _ hne
    exact hdead' (hprepare intent hintent)

/-! ## What every run leaves -/

/-- The state of a door, as its callers may rely on it. -/
structure Sound (sha : Bytes → Bytes32) (door : SweepDoor) : Prop where
  /-- The commit ordinals minted are `1..n` in order. -/
  minted : door.history.minted.map (·.raw.toNat) = range' 1 door.highestCommit.raw.toNat
  /-- The root chain holds a link for each, -/
  ordinals : door.rootChain.links.map (·.commitOrdinal.raw.toNat) =
    range' 1 door.highestCommit.raw.toNat
  /-- and each link covers the root before it. -/
  linked : RootChain.Linked genesisRoot door.rootChain.links
  /-- The WAL segment holds one commit record for each link, -/
  records : door.walSegment.records.map WalRecord.payload =
    door.rootChain.links.map fun link => .commit link.commitOrdinal link.root.digest.bytes
  replays : ∃ st, replay sha door.storeId [door.walSegment] = .ok st ∧
    st.finalHash = door.walTip
  /-- The last durable cut composes the two tips. -/
  cut : door.lastDurableCut =
    door.rootChain.links.getLast?.map fun link => .compose sha link door.walTip
  /-- Ordinals number the intents in the order of their admission, -/
  admitted : door.history.admitted.map (·.intentOrdinal.raw.toNat) =
    range door.nextIntent.raw.toNat
  /-- and intents are sealed in that order. -/
  increasing : door.history.sealedIntents.Pairwise (·.raw < ·.raw)

lemma Kept.sound (h : door.Kept sha) : door.Sound sha where
  minted := h.chains.minted
  ordinals := by
    rw [← h.chains.minted, ← h.chains.ordinals, map_map]
    rfl
  linked := h.chains.linked
  records := by
    rw [h.chains.segment]
    exact map_payload_sealAll sha _ _
  replays := by
    have hpayloads : payloadsOf [door.walSegment] =
        door.rootChain.links.map ChainedStateRoot.payload := by
      rw [payloadsOf, recordsOf, flatMap_singleton, h.chains.segment, map_payload_sealAll]
    have hrecords : recordsOf [door.walSegment] =
        sealAll sha genesisPredecessor (payloadsOf [door.walSegment]) := by
      rw [hpayloads, recordsOf, flatMap_singleton, h.chains.segment]
    have hheaded : Headed door.storeId 0 [door.walSegment] := by
      rw [h.chains.segment]
      exact ⟨rfl, rfl, trivial⟩
    refine ⟨_, (replay_eq_ok sha).mpr ⟨hheaded, hrecords, rfl⟩, ?_⟩
    rw [finalHash_replayed, hpayloads, h.chains.tip]
  cut := h.chains.cut
  admitted := h.queue.admitted
  increasing := h.inOrder.increasing

/-- **The door stays sound** under every sequence of calls, and a call under a superseded session
changes nothing. -/
theorem run_sound {storeId : StoreId} {fenceEpoch : FenceEpoch} {session : SweepSession}
    {authority : WriteAuthority} {cap : StableCommitCap}
    (hopen : openDoor storeId fenceEpoch session authority cap = .ok door)
    (ops : List (SweepOp ε)) :
    (door.run sha ops).Sound sha ∧
      ∀ op : SweepOp ε, op.current ≠ (door.run sha ops).session →
        (door.run sha ops).step sha op = door.run sha ops :=
  ⟨((Kept.openDoor hopen).run ops).sound, fun _ hop => step_of_superseded hop⟩

/-! ### One commit and its digests -/

/-- SHA-256 bound into the link of the commit below. -/
def rootDigest : Bytes32 :=
  .ofNat 0x8646DDE2D9EF71821F5FABDE77D6DDF1A01CDF6F1F21F09F4B4CAE32CF528747

/-- SHA-256 of its WAL record. -/
def recordDigest : Bytes32 :=
  .ofNat 0x5FB446A4FC666211E68815AA2DE043DB133A21271C1513B2BCB9315AC2DC7C5A

/-- SHA-256 of the cut over both. -/
def cutDigest : Bytes32 :=
  .ofNat 0xC526C7258234C315D80927564CFB8CB9D94A574A042D68968FA07A1C0A85D4D2

/-- A door, its session and one content root. -/
def doorStore : StoreId := ⟨.replicate 0x11⟩
def doorIncarnation : IncarnationId := ⟨⟨1⟩, ⟨.replicate 0x33⟩⟩
def doorSession : SweepSession := ⟨doorStore, ⟨1⟩, doorIncarnation⟩
def contentOfCommit : StateRoot := ⟨.replicate 0x22⟩

/-- SHA-256 on the bytes that the run below hashes. -/
def doorDigestOf (b : Bytes) : Bytes32 :=
  if b = recordPreimage genesisPredecessor (.commit ⟨1⟩ rootDigest.bytes) then recordDigest
  else if b = ascii "kyzo.durable_commit_cut.v1" ++ rootDigest.bytes ++ recordDigest.bytes ++
    u64Bytes 1 then cutDigest
  else rootDigest

def commits : WriteTx Unit := ⟨.ok (), .ok ()⟩
def fails : WriteTx Unit := ⟨.error (), .error ()⟩

/-- A window whose batch fails, then an intent that is sealed durably. -/
def failedBatchThenSeal : List (SweepOp Unit) :=
  [.admitIntent doorIncarnation doorSession, .beginFsyncWindow doorIncarnation doorSession,
    .admitIntent doorIncarnation doorSession,
    .sealDurableOverlapBatch [(commits, contentOfCommit), (fails, contentOfCommit)] doorSession,
    .admitIntent doorIncarnation doorSession,
    .sealDurable ⟨⟨2⟩, doorStore, ⟨1⟩, doorIncarnation⟩ commits contentOfCommit doorSession]

/-- After the failed batch the third intent gets the first ordinal. -/
theorem run_sound_failed_batch :
    ∃ door, openDoor doorStore ⟨1⟩ doorSession ⟨.replicate 0x44, doorStore⟩ .nativeFsyncProof =
        .ok door ∧
      (door.run doorDigestOf failedBatchThenSeal).history.sealedIntents = [⟨2⟩] ∧
      (door.run doorDigestOf failedBatchThenSeal).history.minted = [⟨1⟩] ∧
      (door.run doorDigestOf failedBatchThenSeal).Sound doorDigestOf ∧
      ∀ op : SweepOp Unit, op.current ≠ doorSession →
        (door.run doorDigestOf failedBatchThenSeal).step doorDigestOf op =
          door.run doorDigestOf failedBatchThenSeal := by
  have hopen : openDoor doorStore ⟨1⟩ doorSession ⟨.replicate 0x44, doorStore⟩ .nativeFsyncProof =
    .ok _ := rfl
  exact ⟨_, hopen, rfl, rfl, run_sound hopen failedBatchThenSeal⟩

end SweepDoor

end Kyzo

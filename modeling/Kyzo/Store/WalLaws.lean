import Kyzo.Store.WalChain

/-!
# Laws of the WAL

Tamper evidence: the final hash of an accepted log determines its payloads.  And the round trip from
`append` to `replay`: a log written segment by segment is accepted by both exactly when every
segment that gets records begins where the genesis predecessor is still the hash before it.  A log
that is cut between records is accepted as well.
-/

namespace Kyzo

open List WalRecord

variable (sha : Bytes → Bytes32)

/-! ## Tamper evidence -/

/-- The bytes that the records of a log are hashed from. -/
def hashedBytes (segments : List WalSegment) : List Bytes :=
  (recordsOf segments).map fun r => recordPreimage r.predecessorHash r.payload

/-- No record among these hashes to the predecessor that the chain starts from. -/
def NoneHashesToGenesis (records : List WalRecord) : Prop :=
  ∀ r ∈ records, hashRecord sha r.predecessorHash r.payload ≠ genesisPredecessor

section Sealed

variable {sha} {log : List WalSegment}
  (hsealed : recordsOf log = sealAll sha genesisPredecessor (payloadsOf log))

include hsealed

lemma recordPreimage_mem_hashedBytes {e : WalHash × WalPayload}
    (he : e ∈ chainInputs (hashRecord sha) genesisPredecessor (payloadsOf log)) :
    recordPreimage e.1 e.2 ∈ hashedBytes log := by
  rw [← map_input_sealAll, ← hsealed] at he
  obtain ⟨r, hr, rfl⟩ := mem_map.mp he
  exact mem_map_of_mem hr

lemma chainDigests_eq_map : chainDigests (hashRecord sha) genesisPredecessor (payloadsOf log) =
      (recordsOf log).map fun r => hashRecord sha r.predecessorHash r.payload := by
  rw [chainDigests, ← map_input_sealAll, ← hsealed, map_map]
  rfl

lemma genesis_notMem_dropLast (h : NoneHashesToGenesis sha (recordsOf log).dropLast) :
    genesisPredecessor ∉
      (chainDigests (hashRecord sha) genesisPredecessor (payloadsOf log)).dropLast := by
  rw [chainDigests_eq_map hsealed, ← map_dropLast]
  intro hmem
  obtain ⟨r, hr, heq⟩ := mem_map.mp hmem
  exact h r hr heq

lemma chainHash_ne_genesis (h : NoneHashesToGenesis sha (recordsOf log))
    (hne : payloadsOf log ≠ []) :
    chainHash (hashRecord sha) genesisPredecessor (payloadsOf log) ≠ genesisPredecessor := by
  intro heq
  have hmem := chainHash_mem_chainDigests (hashRecord sha) genesisPredecessor hne
  rw [heq, chainDigests_eq_map hsealed] at hmem
  obtain ⟨r, hr, heq⟩ := mem_map.mp hmem
  exact h r hr heq

end Sealed

lemma payloadsOf_eq_of_chainHash_eq {log log' : List WalSegment}
    (hsealed : recordsOf log = sealAll sha genesisPredecessor (payloadsOf log))
    (hsealed' : recordsOf log' = sealAll sha genesisPredecessor (payloadsOf log'))
    (hcol : CollisionFree sha (hashedBytes log ++ hashedBytes log'))
    (hgenesis : NoneHashesToGenesis sha (recordsOf log).dropLast)
    (hgenesis' : NoneHashesToGenesis sha (recordsOf log').dropLast)
    (hne : payloadsOf log ≠ []) (hne' : payloadsOf log' ≠ [])
    (hhash : chainHash (hashRecord sha) genesisPredecessor (payloadsOf log) =
      chainHash (hashRecord sha) genesisPredecessor (payloadsOf log')) :
    payloadsOf log = payloadsOf log' := by
  refine chainHash_injective ?_ (genesis_notMem_dropLast hsealed hgenesis)
    (genesis_notMem_dropLast hsealed' hgenesis') hne hne' hhash
  have hmem : ∀ e : WalHash × WalPayload,
      e ∈ chainInputs (hashRecord sha) genesisPredecessor (payloadsOf log) ∨
        e ∈ chainInputs (hashRecord sha) genesisPredecessor (payloadsOf log') →
      recordPreimage e.1 e.2 ∈ hashedBytes log ++ hashedBytes log' := by
    rintro e (he | he)
    · exact mem_append_left _ (recordPreimage_mem_hashedBytes hsealed he)
    · exact mem_append_right _ (recordPreimage_mem_hashedBytes hsealed' he)
  rintro ⟨pred, p⟩ he ⟨pred', p'⟩ he' heq
  obtain ⟨rfl, rfl⟩ := recordPreimage_injective (hcol _ (hmem _ he) _ (hmem _ he') heq)
  rfl

/-- **Tamper evidence.**  Let the hash function not collide on the records of two logs.  If both are
accepted with records in them and with one final hash, and no record that another one follows hashes
to the genesis predecessor, they hold the same payloads.  If one is accepted, the other holds
different records and no record hashes to the genesis predecessor, then the other is refused or ends
in a different hash. -/
theorem wal_tamper_evident (storeId : StoreId) (log log' : List WalSegment)
    (hcol : CollisionFree sha (hashedBytes log ++ hashedBytes log')) :
    (∀ st st', replay sha storeId log = .ok st → replay sha storeId log' = .ok st' →
      recordsOf log ≠ [] → recordsOf log' ≠ [] →
      NoneHashesToGenesis sha ((recordsOf log).dropLast ++ (recordsOf log').dropLast) →
      st.finalHash = st'.finalHash → payloadsOf log = payloadsOf log') ∧
    ∀ st, replay sha storeId log = .ok st → recordsOf log' ≠ recordsOf log →
      NoneHashesToGenesis sha (recordsOf log ++ recordsOf log') →
      ∀ st', replay sha storeId log' = .ok st' → st'.finalHash ≠ st.finalHash := by
  constructor
  · intro st st' hlog hlog' hne hne' hgenesis hfinal
    obtain ⟨-, hsealed, rfl⟩ := (replay_eq_ok sha).mp hlog
    obtain ⟨-, hsealed', rfl⟩ := (replay_eq_ok sha).mp hlog'
    rw [finalHash_replayed, finalHash_replayed] at hfinal
    exact payloadsOf_eq_of_chainHash_eq sha hsealed hsealed' hcol
      (fun r hr => hgenesis r (mem_append_left _ hr))
      (fun r hr => hgenesis r (mem_append_right _ hr))
      (mt map_eq_nil_iff.mp hne) (mt map_eq_nil_iff.mp hne') hfinal
  · intro st hlog hdiff hgenesis st' hlog' hfinal
    obtain ⟨-, hsealed, rfl⟩ := (replay_eq_ok sha).mp hlog
    obtain ⟨-, hsealed', rfl⟩ := (replay_eq_ok sha).mp hlog'
    rw [finalHash_replayed, finalHash_replayed] at hfinal
    have hl : NoneHashesToGenesis sha (recordsOf log) := fun r hr =>
      hgenesis r (mem_append_left _ hr)
    have hr : NoneHashesToGenesis sha (recordsOf log') := fun r hr =>
      hgenesis r (mem_append_right _ hr)
    refine hdiff ?_
    rw [hsealed, hsealed']
    refine congrArg (sealAll sha genesisPredecessor) (Eq.symm ?_)
    -- A log without records ends in the genesis hash, and no other log does.
    by_cases hne : payloadsOf log = []
    · by_cases hne' : payloadsOf log' = []
      · rw [hne, hne']
      · rw [hne] at hfinal
        exact absurd hfinal (chainHash_ne_genesis hsealed' hr hne')
    · by_cases hne' : payloadsOf log' = []
      · rw [hne'] at hfinal
        exact absurd hfinal.symm (chainHash_ne_genesis hsealed hl hne)
      · exact payloadsOf_eq_of_chainHash_eq sha hsealed hsealed' hcol
          (fun r h => hl r (dropLast_subset _ h)) (fun r h => hr r (dropLast_subset _ h))
          hne hne' hfinal.symm

/-! ### Three commits and their digests -/

/-- SHA-256 of the first commit below. -/
def digestFirst : Bytes32 :=
  .ofNat 0x64FCB6E21823781D96FF6744E668FE6E56815F08CCC14B5CF109189C34E7A307

/-- SHA-256 of the second commit below, over the first. -/
def digestSecond : Bytes32 :=
  .ofNat 0x323CFC4DA3319E46CF5870FC7EDEB16850F770DAD7E418D6DBD2BDAC3A3148AB

/-- SHA-256 of the third commit below, over the first. -/
def digestThird : Bytes32 :=
  .ofNat 0x52F59EF626FE4450CF4DE7FDB07AFEDF5D0EDF5C854F940A094DFC9051E8A1CB

def commitFirst : WalPayload := .commit ⟨1⟩ [0xAA]
def commitSecond : WalPayload := .commit ⟨2⟩ [0xBB]
def commitThird : WalPayload := .commit ⟨2⟩ [0xCC]

/-- SHA-256 on the bytes that the logs below hash. -/
def digestOf (b : Bytes) : Bytes32 :=
  if b = recordPreimage genesisPredecessor commitFirst then digestFirst
  else if b = recordPreimage digestFirst commitSecond then digestSecond
  else digestThird

def logStore : StoreId := ⟨.replicate 0x11⟩

/-- Segment `index` of a log. -/
def segmentOf (index : UInt64) (records : List WalRecord) : WalSegment :=
  ⟨logStore, ⟨1⟩, index, records⟩

/-- Two commits in one segment. -/
def oneSegment : List WalSegment :=
  [segmentOf 0 [⟨genesisPredecessor, commitFirst, digestFirst⟩,
    ⟨digestFirst, commitSecond, digestSecond⟩]]

/-- The same two commits, a segment each. -/
def twoSegments : List WalSegment :=
  [segmentOf 0 [⟨genesisPredecessor, commitFirst, digestFirst⟩],
    segmentOf 1 [⟨digestFirst, commitSecond, digestSecond⟩]]

/-- The second commit exchanged for the third. -/
def exchanged : List WalSegment :=
  [segmentOf 0 [⟨genesisPredecessor, commitFirst, digestFirst⟩,
    ⟨digestFirst, commitThird, digestThird⟩]]

/-- Where a log is cut into segments does not show in its final hash, an exchanged commit does. -/
theorem wal_tamper_evident_exchanged : (∃ st st', replay digestOf logStore oneSegment = .ok st ∧
      replay digestOf logStore twoSegments = .ok st' ∧ st.finalHash = st'.finalHash ∧
      payloadsOf oneSegment = payloadsOf twoSegments) ∧
    ∃ st st', replay digestOf logStore oneSegment = .ok st ∧
      replay digestOf logStore exchanged = .ok st' ∧ st'.finalHash ≠ st.finalHash := by
  have hcol : CollisionFree digestOf (hashedBytes oneSegment ++ hashedBytes twoSegments) := by
    decide +kernel
  have hcol' : CollisionFree digestOf (hashedBytes oneSegment ++ hashedBytes exchanged) := by
    decide +kernel
  constructor
  · refine ⟨_, _, rfl, rfl, rfl, ?_⟩
    exact (wal_tamper_evident digestOf logStore oneSegment twoSegments hcol).1 _ _ rfl rfl
      (by decide) (by decide) (by unfold NoneHashesToGenesis; decide +kernel) rfl
  · refine ⟨_, _, rfl, rfl, ?_⟩
    exact (wal_tamper_evident digestOf logStore oneSegment exchanged hcol').2 _ rfl
      (by decide +kernel) (by unfold NoneHashesToGenesis; decide +kernel) _ rfl

/-- A hash function that gives back the genesis predecessor on the first commit, and collides on
nothing the two logs hold, hides that commit. -/
theorem genesis_digest_hides_record : ∃ (sha : Bytes → Bytes32) (log log' : List WalSegment),
      CollisionFree sha (hashedBytes log ++ hashedBytes log') ∧
      recordsOf log ≠ [] ∧ recordsOf log' ≠ [] ∧
      (∃ st st', replay sha logStore log = .ok st ∧ replay sha logStore log' = .ok st' ∧
        st.finalHash = st'.finalHash) ∧
      payloadsOf log ≠ payloadsOf log' := by
  let sha (b : Bytes) : Bytes32 :=
    if b = recordPreimage genesisPredecessor commitFirst then genesisPredecessor else digestSecond
  let log := [segmentOf 0 [⟨genesisPredecessor, commitSecond, digestSecond⟩]]
  let log' := [segmentOf 0 [⟨genesisPredecessor, commitFirst, genesisPredecessor⟩,
    ⟨genesisPredecessor, commitSecond, digestSecond⟩]]
  exact ⟨sha, log, log', by decide +kernel, by decide, by decide,
    ⟨_, _, rfl, rfl, rfl⟩, by decide⟩

/-! ## A log cut short -/

section

variable {storeId : StoreId} {segment : WalSegment} {pre post : List WalSegment}
  {kept lost : List WalRecord}

lemma headed_cut {index : UInt64} (h : Headed storeId index (pre ++ segment :: post)) :
    Headed storeId index (pre ++ [{ segment with records := kept }]) := by
  induction pre generalizing index with
  | nil => exact ⟨h.1, h.2.1, trivial⟩
  | cons _ pre ih => exact ⟨h.1, h.2.1, ih h.2.2⟩

/-- **A log that loses its end is still accepted**, wherever it is cut between records, and its
state lacks the lost payloads only: they lead from it to the state of the whole log. -/
theorem replay_cut {st : WalReplayState}
    (hlog : replay sha storeId (pre ++ segment :: post) = .ok st)
    (hcut : segment.records = kept ++ lost) :
    ∃ st', replay sha storeId (pre ++ [{ segment with records := kept }]) = .ok st' ∧
      st = replayed sha st' (lost.map payload ++ payloadsOf post) := by
  obtain ⟨hheaded, hsealed, rfl⟩ := (replay_eq_ok sha).mp hlog
  have hrecords : recordsOf (pre ++ segment :: post) =
      recordsOf (pre ++ [{ segment with records := kept }]) ++ (lost ++ recordsOf post) := by
    simp [recordsOf, hcut]
  have hpayloads := congrArg (map payload) hrecords
  rw [map_append, map_append] at hpayloads
  rw [payloadsOf, hpayloads, sealAll_append, hrecords] at hsealed
  refine ⟨_, (replay_eq_ok sha).mpr ⟨headed_cut hheaded, ?_, rfl⟩, ?_⟩
  · exact (append_inj hsealed (by simp)).1
  · rw [payloadsOf, hpayloads, replayed, foldl_append]
    rfl

end

/-- The second commit is lost. -/
theorem replay_cut_second : ∃ st st', replay digestOf logStore oneSegment = .ok st ∧
    replay digestOf logStore [segmentOf 0 [⟨genesisPredecessor, commitFirst, digestFirst⟩]] =
      .ok st' ∧ st = replayed digestOf st' [commitSecond] := by
  have hlog : replay digestOf logStore ([] ++ oneSegment) = .ok _ := rfl
  obtain ⟨st', hcut⟩ := replay_cut digestOf hlog (Eq.refl ([_] ++ [_]))
  exact ⟨_, st', hlog, hcut⟩

/-! ## From append to replay -/

/-- Seals each payload over the hash before it and appends the record to the segment. -/
def writeRecords : WalSegment → WalHash → List WalPayload → Except WalRefuse WalSegment
  | segment, _, [] => .ok segment
  | segment, pred, payload :: payloads => do
    let record := sealOver sha pred payload
    let segment ← segment.append record
    writeRecords segment record.recordHash payloads

/-- Writes a log: for each part of the payloads a segment with the next index, headed by the part's
epoch. -/
def writeLog (storeId : StoreId) :
    UInt64 → WalHash → List (FenceEpoch × List WalPayload) → Except WalRefuse (List WalSegment)
  | _, _, [] => .ok []
  | index, pred, (fenceEpoch, payloads) :: parts => do
    let segment ← writeRecords sha (.openAt storeId fenceEpoch index) pred payloads
    let segments ← writeLog storeId (saturatingSucc index)
      (chainHash (hashRecord sha) pred payloads) parts
    .ok (segment :: segments)

/-- All payloads of a split. -/
def payloadsOfParts (parts : List (FenceEpoch × List WalPayload)) : List WalPayload :=
  parts.flatMap Prod.snd

/-- Every part that has payloads begins where the hash before it is the genesis predecessor. -/
def PartsBeginAtGenesis (pred : WalHash) (parts : List (FenceEpoch × List WalPayload)) : Prop :=
  ∀ before part after, parts = before ++ part :: after → part.2 ≠ [] →
    chainHash (hashRecord sha) pred (payloadsOfParts before) = genesisPredecessor

lemma partsBeginAtGenesis_cons (pred : WalHash) (fenceEpoch : FenceEpoch)
    (payloads : List WalPayload) (parts : List (FenceEpoch × List WalPayload)) :
    PartsBeginAtGenesis sha pred ((fenceEpoch, payloads) :: parts) ↔
      (payloads ≠ [] → pred = genesisPredecessor) ∧
        PartsBeginAtGenesis sha (chainHash (hashRecord sha) pred payloads) parts := by
  have hcons : ∀ before, chainHash (hashRecord sha) pred
      (payloadsOfParts ((fenceEpoch, payloads) :: before)) =
        chainHash (hashRecord sha) (chainHash (hashRecord sha) pred payloads)
          (payloadsOfParts before) := by
    intro before
    rw [payloadsOfParts, flatMap_cons, chainHash_append]
    rfl
  constructor
  · intro h
    refine ⟨fun hne => h [] _ parts rfl hne, fun before part after hparts hne => ?_⟩
    rw [← hcons]
    exact h (_ :: before) part after (by rw [hparts]; rfl) hne
  · rintro ⟨hfirst, hrest⟩ before part after hparts hne
    rcases before with _ | ⟨first, before⟩
    · cases hparts
      exact hfirst hne
    · obtain ⟨rfl, htail⟩ := cons.inj hparts
      rw [hcons]
      exact hrest before part after htail hne

/-- **Appending to a segment** works when the first record continues it. -/
theorem writeRecords_eq_ok {segment segment' : WalSegment} {pred : WalHash}
    {payloads : List WalPayload} :
    writeRecords sha segment pred payloads = .ok segment' ↔
      (payloads ≠ [] → pred = segment.terminalHash) ∧
        segment' = { segment with records := segment.records ++ sealAll sha pred payloads } := by
  induction payloads generalizing segment pred with
  | nil =>
    rw [writeRecords, sealAll, append_nil]
    exact ⟨fun h => ⟨fun hne => absurd rfl hne, (Except.ok.inj h).symm⟩, fun h => by rw [h.2]⟩
  | cons payload payloads ih =>
    simp only [writeRecords, bind_eq_ok, WalSegment.append_eq_ok, ih]
    constructor
    · rintro ⟨s, ⟨hpred, rfl⟩, -, rfl⟩
      exact ⟨fun _ => hpred, by simp [sealAll, sealOver]⟩
    · rintro ⟨hpred, rfl⟩
      refine ⟨_, ⟨hpred (cons_ne_nil _ _), rfl⟩, fun _ => ?_, ?_⟩
      · rw [WalSegment.terminalHash_append]
      · simp [sealAll, sealOver]

/-- The segments a split is written to. -/
def segmentsOf (storeId : StoreId) :
    UInt64 → WalHash → List (FenceEpoch × List WalPayload) → List WalSegment
  | _, _, [] => []
  | index, pred, (fenceEpoch, payloads) :: parts =>
    ⟨storeId, fenceEpoch, index, sealAll sha pred payloads⟩ ::
      segmentsOf storeId (saturatingSucc index) (chainHash (hashRecord sha) pred payloads) parts

lemma writeLog_eq_ok {storeId : StoreId} {index : UInt64} {pred : WalHash}
    {parts : List (FenceEpoch × List WalPayload)} {segments : List WalSegment} :
    writeLog sha storeId index pred parts = .ok segments ↔
      PartsBeginAtGenesis sha pred parts ∧
        segments = segmentsOf sha storeId index pred parts := by
  induction parts generalizing index pred segments with
  | nil =>
    have hnil : PartsBeginAtGenesis sha pred [] := by
      intro before part after h
      simp at h
    rw [writeLog, segmentsOf]
    exact ⟨fun h => ⟨hnil, (Except.ok.inj h).symm⟩, fun h => by rw [h.2]⟩
  | cons part parts ih =>
    obtain ⟨fenceEpoch, payloads⟩ := part
    simp only [writeLog, bind_eq_ok, writeRecords_eq_ok, ih, partsBeginAtGenesis_cons]
    constructor
    · rintro ⟨segment, ⟨hfirst, rfl⟩, rest, ⟨hrest, rfl⟩, h⟩
      exact ⟨⟨hfirst, hrest⟩, (Except.ok.inj h).symm⟩
    · rintro ⟨⟨hfirst, hrest⟩, rfl⟩
      exact ⟨_, ⟨hfirst, rfl⟩, _, ⟨hrest, rfl⟩, rfl⟩

section

variable (storeId : StoreId) (index : UInt64) (pred : WalHash)
  (parts : List (FenceEpoch × List WalPayload))

lemma headed_segmentsOf : Headed storeId index (segmentsOf sha storeId index pred parts) := by
  induction parts generalizing index pred with
  | nil => trivial
  | cons part parts ih => exact ⟨rfl, rfl, ih _ _⟩

lemma recordsOf_segmentsOf : recordsOf (segmentsOf sha storeId index pred parts) =
      sealAll sha pred (payloadsOfParts parts) := by
  induction parts generalizing index pred with
  | nil => rfl
  | cons part parts ih =>
    rw [segmentsOf, recordsOf, flatMap_cons, payloadsOfParts, flatMap_cons, sealAll_append]
    exact congrArg (sealAll sha pred part.2 ++ ·) (ih _ _)

end

/-- **Round trip.**  A log written part by part is accepted by every `append` and replayed to the
hash of its last record and to its commits in order, exactly when each part that has payloads begins
where the hash before it is the genesis predecessor. -/
theorem wal_round_trip_iff (storeId : StoreId) (parts : List (FenceEpoch × List WalPayload)) :
    (∃ segments st, writeLog sha storeId 0 genesisPredecessor parts = .ok segments ∧
      replay sha storeId segments = .ok st ∧
      st.finalHash =
        ((recordsOf segments).getLast?.map recordHash).getD genesisPredecessor ∧
      st.commitBodies = commitsOf (payloadsOfParts parts)) ↔
    PartsBeginAtGenesis sha genesisPredecessor parts := by
  constructor
  · rintro ⟨segments, st, hwrite, -⟩
    exact ((writeLog_eq_ok sha).mp hwrite).1
  · intro hparts
    have hrecords := recordsOf_segmentsOf sha storeId 0 genesisPredecessor parts
    have hpayloads : payloadsOf (segmentsOf sha storeId 0 genesisPredecessor parts) =
        payloadsOfParts parts := by
      rw [payloadsOf, hrecords, map_payload_sealAll]
    refine ⟨_, _, (writeLog_eq_ok sha).mpr ⟨hparts, rfl⟩, (replay_eq_ok sha).mpr
      ⟨headed_segmentsOf sha storeId 0 genesisPredecessor parts, ?_, rfl⟩, ?_, ?_⟩
    · rw [hpayloads, hrecords]
    · rw [finalHash_replayed, hrecords, hpayloads, ← getLast?_map, map_recordHash_sealAll,
        getLast?_chainDigests]
    · rw [commitBodies_replayed, hpayloads]
      rfl

/-- The first record of a second segment, sealed over the last hash of the first, is refused. -/
theorem second_segment_refused : writeLog digestOf logStore 0 genesisPredecessor
      [(⟨1⟩, [commitFirst]), (⟨1⟩, [commitSecond])] =
        .error (.chainBreak genesisPredecessor digestFirst) := by
  decide +kernel

end Kyzo

import Kyzo.Lib.Except
import Kyzo.Lib.HashChain
import Kyzo.Store.Wal

/-!
# The chain along a WAL

Replay accepts exactly the segment lists whose headers fit and whose records, read across the
segment boundaries, are sealed one over the other from the genesis predecessor.  What it returns is
a function of the payloads alone, and its final hash determines them.
-/

namespace Kyzo

open List WalRecord

variable (sha : Bytes → Bytes32)

/-! ## Preimages -/

namespace WalPayload

/-- The letter a kind of payload begins with. -/
def kindByte : WalPayload → UInt8
  | .commit .. => 0x63
  | .nonceFloor .. => 0x6E
  | .incarnationSealed .. => 0x69

lemma head?_preimage (p : WalPayload) : p.preimage.head? = some p.kindByte := by
  rcases p with _ | _ | _ <;> rfl

lemma preimage_injective {p q : WalPayload} (h : p.preimage = q.preimage) : p = q := by
  -- The kinds begin with different letters.
  have hkind : p.kindByte = q.kindByte :=
    Option.some.inj (p.head?_preimage.symm.trans ((congrArg head? h).trans q.head?_preimage))
  rcases p with ⟨⟨o⟩, b⟩ | ⟨d, ⟨c⟩⟩ | ⟨⟨⟨o⟩, ⟨e⟩⟩⟩ <;>
    rcases q with ⟨⟨o'⟩, b'⟩ | ⟨d', ⟨c'⟩⟩ | ⟨⟨⟨o'⟩, ⟨e'⟩⟩⟩ <;>
    first | (simp [kindByte] at hkind; done) | simp only [preimage, append_assoc] at h
  · obtain ⟨ho, rfl⟩ := append_inj (append_cancel_left h) (by simp)
    obtain rfl : o = o' := u64Bytes_injective ho
    rfl
  · obtain ⟨htag, hc⟩ := append_inj (append_cancel_left h) (by simp)
    obtain rfl : c = c' := u64Bytes_injective hc
    obtain rfl : d = d' := by
      revert htag
      cases d <;> cases d' <;> decide
    rfl
  · obtain ⟨ho, he⟩ := append_inj (append_cancel_left h) (by simp)
    obtain rfl : o = o' := u64Bytes_injective ho
    obtain rfl : e = e' := Bytes32.bytes_injective he
    rfl

end WalPayload

lemma recordPreimage_injective {pred pred' : WalHash} {p p' : WalPayload}
    (h : recordPreimage pred p = recordPreimage pred' p') : pred = pred' ∧ p = p' := by
  rw [recordPreimage, recordPreimage, append_assoc, append_assoc] at h
  obtain ⟨hpred, hp⟩ := append_inj (append_cancel_left h) (by simp)
  exact ⟨Bytes32.bytes_injective hpred, WalPayload.preimage_injective hp⟩

/-! ## Segments -/

namespace WalSegment

/-- **What `append` accepts.** -/
theorem append_eq_ok {s s' : WalSegment} {record : WalRecord} : s.append record = .ok s' ↔
      record.predecessorHash = s.terminalHash ∧
        s' = { s with records := s.records ++ [record] } := by
  simp only [append]
  split_ifs with hpred
  · exact iff_of_false (fun h => by cases h) fun h => hpred h.1
  · exact ⟨fun h => ⟨not_not.mp hpred, (Except.ok.inj h).symm⟩, fun h => by rw [h.2]⟩

@[simp] lemma terminalHash_append (s : WalSegment) (record : WalRecord) :
    terminalHash { s with records := s.records ++ [record] } = record.recordHash := by
  simp [terminalHash]

end WalSegment

/-! ## Sealed records -/

/-- Payloads sealed one over the other. -/
def sealAll : WalHash → List WalPayload → List WalRecord
  | _, [] => []
  | pred, payload :: payloads =>
    .sealOver sha pred payload :: sealAll (hashRecord sha pred payload) payloads

section

variable (pred : WalHash) (payloads : List WalPayload)

@[simp] lemma map_payload_sealAll : (sealAll sha pred payloads).map payload = payloads := by
  induction payloads generalizing pred with
  | nil => rfl
  | cons payload payloads ih => rw [sealAll, map_cons, ih]; rfl

@[simp] lemma map_recordHash_sealAll : (sealAll sha pred payloads).map recordHash =
      chainDigests (hashRecord sha) pred payloads := by
  induction payloads generalizing pred with
  | nil => rfl
  | cons payload payloads ih => rw [sealAll, map_cons, ih]; rfl

lemma map_input_sealAll :
    ((sealAll sha pred payloads).map fun r => (r.predecessorHash, r.payload)) =
      chainInputs (hashRecord sha) pred payloads := by
  induction payloads generalizing pred with
  | nil => rfl
  | cons payload payloads ih => rw [sealAll, map_cons, ih]; rfl

@[simp] lemma length_sealAll : (sealAll sha pred payloads).length = payloads.length := by
  rw [← length_map (f := payload), map_payload_sealAll]

end

lemma sealAll_append (pred : WalHash) (payloads payloads' : List WalPayload) :
    sealAll sha pred (payloads ++ payloads') = sealAll sha pred payloads ++
      sealAll sha (chainHash (hashRecord sha) pred payloads) payloads' := by
  induction payloads generalizing pred with
  | nil => rfl
  | cons payload payloads ih => rw [cons_append, sealAll, ih]; rfl

/-! ## What replay returns -/

/-- One payload applied to the state of a replay. -/
def replayStep (st : WalReplayState) (payload : WalPayload) : WalReplayState :=
  let applied := applyPayload st.floors st.commitBodies payload
  ⟨applied.1, applied.2, hashRecord sha st.finalHash payload⟩

/-- Payloads applied to the state of a replay. -/
def replayed (st : WalReplayState) (payloads : List WalPayload) : WalReplayState :=
  payloads.foldl (replayStep sha) st

/-- The commits among payloads. -/
def commitsOf (payloads : List WalPayload) : List (CommitOrdinal × Bytes) :=
  payloads.filterMap fun
    | .commit commitOrdinal body => some (commitOrdinal, body)
    | _ => none

section

variable (st : WalReplayState) (payloads : List WalPayload)

@[simp] lemma finalHash_replayed : (replayed sha st payloads).finalHash =
      chainHash (hashRecord sha) st.finalHash payloads := by
  induction payloads generalizing st with
  | nil => rfl
  | cons payload payloads ih => exact ih (replayStep sha st payload)

@[simp] lemma commitBodies_replayed :
    (replayed sha st payloads).commitBodies = st.commitBodies ++ commitsOf payloads := by
  induction payloads generalizing st with
  | nil => simp [replayed, commitsOf]
  | cons payload payloads ih =>
    refine (ih (replayStep sha st payload)).trans ?_
    rcases payload with ⟨o, b⟩ | ⟨d, c⟩ | i
    · simp [replayStep, applyPayload, commitsOf]
    · cases d <;> rfl
    · rfl

end

variable {st st' : WalReplayState}

/-- **The records of a segment** are accepted exactly when they are sealed one over the other. -/
theorem replayRecords_eq_ok {records : List WalRecord} : replayRecords sha st records = .ok st' ↔
      records = sealAll sha st.finalHash (records.map payload) ∧
        st' = replayed sha st (records.map payload) := by
  induction records generalizing st with
  | nil =>
    refine ⟨fun h => ?_, fun h => ?_⟩
    · cases h
      exact ⟨rfl, rfl⟩
    · rw [h.2]
      rfl
  | cons record records ih =>
    obtain ⟨pred, payload, hash⟩ := record
    rw [replayRecords]
    by_cases hpred : pred = st.finalHash
    · by_cases hhash : hashRecord sha pred payload = hash
      · subst hpred hhash
        rw [if_neg (not_not.mpr rfl), if_neg (not_not.mpr rfl), ih, map_cons, sealAll,
          cons.injEq]
        exact and_congr_left fun _ => (and_iff_right rfl).symm
      · refine iff_of_false ?_ ?_
        · rw [if_neg (not_not.mpr hpred), if_pos hhash]
          exact fun h => by cases h
        · rintro ⟨h, -⟩
          rw [map_cons, sealAll, cons.injEq] at h
          obtain ⟨-, -, heq⟩ := mk.inj h.1
          exact hhash (hpred ▸ heq.symm)
    · refine iff_of_false ?_ ?_
      · rw [if_pos hpred]
        exact fun h => by cases h
      · rintro ⟨h, -⟩
        rw [map_cons, sealAll, cons.injEq] at h
        exact hpred (mk.inj h.1).1

/-- The headers of a log: one store, and indices that count up. -/
def Headed (storeId : StoreId) : UInt64 → List WalSegment → Prop
  | _, [] => True
  | index, segment :: segments =>
    segment.storeId = storeId ∧ segment.segmentIndex = index ∧
      Headed storeId (saturatingSucc index) segments

/-- All records of a log, in order. -/
def recordsOf (segments : List WalSegment) : List WalRecord := segments.flatMap WalSegment.records

/-- The payloads of a log, in order. -/
def payloadsOf (segments : List WalSegment) : List WalPayload :=
  (recordsOf segments).map payload

section

variable (segment : WalSegment) (segments : List WalSegment)

lemma payloadsOf_cons : payloadsOf (segment :: segments) =
      segment.records.map payload ++ payloadsOf segments := by
  rw [payloadsOf, recordsOf, flatMap_cons, map_append]
  rfl

lemma recordsOf_cons_eq_sealAll (pred : WalHash) :
    recordsOf (segment :: segments) = sealAll sha pred (payloadsOf (segment :: segments)) ↔
      segment.records = sealAll sha pred (segment.records.map payload) ∧
        recordsOf segments = sealAll sha (chainHash (hashRecord sha) pred
          (segment.records.map payload)) (payloadsOf segments) := by
  rw [payloadsOf_cons, sealAll_append]
  constructor
  · intro h
    exact append_inj h (by simp)
  · rintro ⟨hsegment, hsegments⟩
    rw [← hsegment]
    exact congrArg (segment.records ++ ·) hsegments

end

variable {storeId : StoreId} {segments : List WalSegment}

/-- **Replay reads one chain across the segments.** -/
theorem replaySegments_eq_ok {index : UInt64} :
    replaySegments sha storeId index st segments = .ok st' ↔
      Headed storeId index segments ∧
        recordsOf segments = sealAll sha st.finalHash (payloadsOf segments) ∧
        st' = replayed sha st (payloadsOf segments) := by
  induction segments generalizing index st with
  | nil =>
    refine ⟨fun h => ?_, fun h => ?_⟩
    · cases h
      exact ⟨trivial, rfl, rfl⟩
    · rw [h.2.2]
      rfl
  | cons segment segments ih =>
    rw [replaySegments]
    by_cases hstore : segment.storeId = storeId
    · by_cases hindex : segment.segmentIndex = index
      · rw [if_neg (not_not.mpr hstore), if_neg (not_not.mpr hindex), bind_eq_ok]
        simp only [replayRecords_eq_ok, ih]
        have hsplit := recordsOf_cons_eq_sealAll sha segment segments st.finalHash
        have hreplayed : replayed sha st (payloadsOf (segment :: segments)) =
            replayed sha (replayed sha st (segment.records.map payload))
              (payloadsOf segments) := by
          rw [payloadsOf_cons, replayed, foldl_append]
          rfl
        rw [hsplit, hreplayed]
        constructor
        · rintro ⟨st₁, ⟨hrecords, rfl⟩, hheaded, hrest, hst⟩
          rw [finalHash_replayed] at hrest
          exact ⟨⟨hstore, hindex, hheaded⟩, ⟨hrecords, hrest⟩, hst⟩
        · rintro ⟨⟨-, -, hheaded⟩, ⟨hrecords, hrest⟩, hst⟩
          refine ⟨_, ⟨hrecords, rfl⟩, hheaded, ?_, hst⟩
          rwa [finalHash_replayed]
      · rw [if_neg (not_not.mpr hstore), if_pos hindex]
        exact iff_of_false (fun h => by cases h) fun h => hindex h.1.2.1
    · rw [if_pos hstore]
      exact iff_of_false (fun h => by cases h) fun h => hstore h.1.1

/-- **What replay accepts.** -/
theorem replay_eq_ok : replay sha storeId segments = .ok st ↔
      Headed storeId 0 segments ∧
        recordsOf segments = sealAll sha genesisPredecessor (payloadsOf segments) ∧
        st = replayed sha ⟨.genesis, [], genesisPredecessor⟩ (payloadsOf segments) :=
  replaySegments_eq_ok sha

end Kyzo

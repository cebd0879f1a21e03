import Kyzo.Store.SweepRuns

/-!
# What the sweep door can still seal

An admitted intent can be sealed as long as it comes after the last one sealed and an ordinal is
left.
-/

namespace Kyzo

open List Option

namespace SweepDoor

variable {sha : Bytes → Bytes32} {ε : Type} {door : SweepDoor}

/-! ## Seals that succeed -/

variable {intent : AdmittedIntent}

section

variable (h : door.Kept sha) (hadmitted : intent ∈ door.history.admitted)
include h hadmitted

lemma prepareSeal_of_admitted : door.prepareSeal (ε := ε) intent door.session =
      (door.checkIntentOrder intent.intentOrdinal).mapError .sweep := by
  obtain ⟨hstore, hepoch⟩ := h.queue.session
  obtain ⟨hstore', hepoch', hincarnation⟩ := h.queue.own intent hadmitted
  have hcheck : door.recheckSession intent.incarnationId door.session = .ok () :=
    recheckSession_eq_ok.mpr ⟨rfl, hincarnation, hepoch, hstore⟩
  have hdoor : ¬intent.storeId ≠ door.storeId := not_not.mpr hstore'
  have hfence : ¬intent.fenceEpoch ≠ door.session.fenceEpoch :=
    not_not.mpr (hepoch'.trans hepoch.symm)
  rw [prepareSeal, hcheck, if_neg hdoor, if_neg hfence]
  rfl

lemma prepareSeal_of_unsealed (hnew : door.Unsealed intent.intentOrdinal) :
    door.prepareSeal (ε := ε) intent door.session = .ok () := by
  rw [prepareSeal_of_admitted h hadmitted, checkIntentOrder_eq_ok.mpr hnew]
  rfl

lemma prepareSeal_of_not_unsealed (hold : ¬door.Unsealed intent.intentOrdinal) :
    door.prepareSeal (ε := ε) intent door.session = .error (.sweep .intentOrderRegression) := by
  have hcheck : door.checkIntentOrder intent.intentOrdinal = .error .intentOrderRegression := by
    obtain ⟨last, hlast, hle⟩ : ∃ last, door.lastSealedIntent = some last ∧
        ¬last.raw < intent.intentOrdinal.raw := by
      simpa [Unsealed] using hold
    rw [checkIntentOrder, hlast]
    exact if_pos (UInt64.not_lt.mp hle)
  rw [prepareSeal_of_admitted h hadmitted, hcheck]
  rfl

end

/-- Minting a cohort succeeds while ordinals last: every member gets one and is noted as sealed, the
last one sealed is of the cohort, and the queue side stays. -/
theorem mintAll_eq_ok {cohort : List (AdmittedIntent × StateRoot)} (h : door.Chains sha)
    (hleft : door.highestCommit.raw.toNat + cohort.length < 2 ^ 64) :
    let minted := door.mintAll (ε := ε) sha cohort
    (∃ committed, minted.2 = .ok committed) ∧
      minted.1.highestCommit.raw.toNat = door.highestCommit.raw.toNat + cohort.length ∧
      minted.1.view = door.view ∧ (∀ last ∈ minted.1.lastSealedIntent,
        last ∈ door.lastSealedIntent ∨ ∃ e ∈ cohort, e.1.intentOrdinal = last) ∧
      minted.1.history.sealedIntents =
        door.history.sealedIntents ++ (cohort.map Prod.fst).map (·.intentOrdinal) := by
  induction cohort generalizing door with
  | nil => exact ⟨⟨[], rfl⟩, rfl, rfl, fun last hlast => .inl hlast, (append_nil _).symm⟩
  | cons first cohort ih =>
    obtain ⟨intent, contentRoot⟩ := first
    rw [length_cons] at hleft
    obtain ⟨raw, hraw⟩ := isSome_iff_exists.mp
      ((isSome_checkedSucc door.highestCommit.raw).mpr (by omega))
    have hsucc := checkedSucc_eq_some.mp hraw
    have hhighest : (door.afterMint sha intent.intentOrdinal contentRoot ⟨raw⟩).highestCommit.raw =
      raw := rfl
    obtain ⟨⟨committed, hrest⟩, hcount, hview, hlast, hsealed⟩ :=
      ih (h.afterMint intent.intentOrdinal contentRoot hraw) (by rw [hhighest]; omega)
    simp only [mintAll, mintCommittedAfterBarrier_eq h, hraw]
    generalize (door.afterMint sha intent.intentOrdinal contentRoot ⟨raw⟩).mintAll
      sha cohort = rest at hrest hcount hview hlast hsealed ⊢
    obtain ⟨door', result⟩ := rest
    obtain rfl : result = .ok committed := hrest
    refine ⟨⟨_, rfl⟩, ?_, hview, fun last hmem => .inr ?_, ?_⟩
    · rw [hhighest] at hcount
      simp only [length_cons] at hcount ⊢
      omega
    · rcases hlast last hmem with hsealed | ⟨e, he, hlast⟩
      · exact ⟨_, .head _, some.inj hsealed⟩
      · exact ⟨e, .tail _ he, hlast⟩
    · rw [hsealed, map_cons, map_cons, append_cons]
      rfl

lemma sealDurable_eq_ok (h : door.Kept sha) (hwindow : door.fsyncWindow = .closed)
    (hadmitted : intent ∈ door.history.admitted) (hnew : door.Unsealed intent.intentOrdinal)
    (hleft : door.highestCommit.raw.toNat + 1 < 2 ^ 64) {tx : WriteTx ε}
    (htx : tx.commitDurable = .ok ()) (contentRoot : StateRoot) :
    ∃ committed, (door.sealDurable sha intent tx contentRoot door.session).2 = .ok committed := by
  obtain ⟨raw, hraw⟩ := isSome_iff_exists.mp
    ((isSome_checkedSucc door.highestCommit.raw).mpr hleft)
  rw [sealDurable, hwindow, prepareSeal_of_unsealed h hadmitted hnew]
  simp only [StableCommitCap.barrier_eq, htx, mintCommittedAfterBarrier_eq h.chains, hraw]
  exact ⟨_, rfl⟩

lemma sealDurableOverlapBatch_eq_ok (h : door.Kept sha) (hwindow : door.fsyncWindow = .opened)
    (hne : door.overlapCohort ≠ [])
    (hnew : ∀ intent ∈ door.overlapCohort, door.Unsealed intent.intentOrdinal)
    (hleft : door.highestCommit.raw.toNat + door.overlapCohort.length < 2 ^ 64)
    {work : List (WriteTx ε × StateRoot)} (hlen : work.length = door.overlapCohort.length)
    (htx : ∀ w ∈ work, w.1.commitDurable = .ok ()) :
    ∃ result, (door.sealDurableOverlapBatch sha work door.session).2 = .ok result := by
  have hprepare : door.overlapCohort.forM
      (fun intent => door.prepareSeal (ε := ε) intent door.session) = .ok () :=
    forM_eq_ok.mpr fun intent hi => prepareSeal_of_unsealed h
      (h.queue.subset intent (mem_append_left _ hi)) (hnew intent hi)
  have hbarrier : (work.map Prod.fst).forM (fun tx => door.stableCommitCap.barrier tx) =
      .ok () := by
    refine forM_eq_ok.mpr fun tx htxmem => ?_
    obtain ⟨w, hw, rfl⟩ := mem_map.mp htxmem
    rw [StableCommitCap.barrier_eq, htx w hw]
  have hchains : Chains sha { door with overlapCohort := [] } := { h.chains with }
  have hzip : (door.overlapCohort.zip (work.map Prod.snd)).length = door.overlapCohort.length := by
    rw [length_zip, length_map, hlen, Nat.min_self]
  rw [← hzip] at hleft
  obtain ⟨⟨committed, hmint⟩, -⟩ := mintAll_eq_ok hchains hleft
  rw [sealDurableOverlapBatch, if_neg (not_not.mpr hwindow), if_neg (not_not.mpr hlen), if_neg hne]
  simp only [hprepare, hbarrier]
  generalize mintAll sha { door with overlapCohort := [] }
    (door.overlapCohort.zip (work.map Prod.snd)) = minted at hmint ⊢
  obtain ⟨door', result⟩ := minted
  obtain rfl : result = .ok committed := hmint
  exact ⟨_, rfl⟩

/-- **What can still be sealed**, in every state that calls lead to and while ordinals last.  If a
window is open and its cohort holds intents that all come after the last one sealed, every batch
whose transactions succeed is sealed.  If no window is open, every admitted intent after the last
one sealed is sealed durably when its transaction succeeds, and every other admitted intent is
refused. -/
theorem run_can_seal (sha : Bytes → Bytes32) {storeId : StoreId} {fenceEpoch : FenceEpoch}
    {session : SweepSession} {authority : WriteAuthority} {cap : StableCommitCap}
    (hopen : openDoor storeId fenceEpoch session authority cap = .ok door)
    (ops : List (SweepOp ε)) :
    let now := door.run sha ops
    (now.fsyncWindow = .opened → now.overlapCohort ≠ [] →
      (∀ intent ∈ now.overlapCohort, now.Unsealed intent.intentOrdinal) →
      now.highestCommit.raw.toNat + now.overlapCohort.length < 2 ^ 64 →
      ∀ work : List (WriteTx ε × StateRoot), work.length = now.overlapCohort.length →
        (∀ w ∈ work, w.1.commitDurable = .ok ()) →
        ∃ result, (now.sealDurableOverlapBatch sha work now.session).2 = .ok result) ∧
    (now.fsyncWindow = .closed → ∀ intent ∈ now.history.admitted,
      (now.Unsealed intent.intentOrdinal → now.highestCommit.raw.toNat + 1 < 2 ^ 64 →
        ∀ (tx : WriteTx ε) (contentRoot : StateRoot), tx.commitDurable = .ok () →
          ∃ committed,
            (now.sealDurable sha intent tx contentRoot now.session).2 = .ok committed) ∧
      (¬now.Unsealed intent.intentOrdinal → ∀ (tx : WriteTx ε) (contentRoot : StateRoot),
        (now.sealDurable sha intent tx contentRoot now.session).2 =
          .error (.sweep .intentOrderRegression))) := by
  have hkept : (door.run sha ops).Kept sha := (Kept.openDoor hopen).run ops
  refine ⟨fun hwindow hne hnew hleft work hlen htx =>
    sealDurableOverlapBatch_eq_ok hkept hwindow hne hnew hleft hlen htx, ?_⟩
  intro hwindow intent hadmitted
  refine ⟨fun hnew hleft tx contentRoot htx =>
    sealDurable_eq_ok hkept hwindow hadmitted hnew hleft htx contentRoot, ?_⟩
  intro hold tx contentRoot
  rw [sealDurable, hwindow, if_neg (by decide), prepareSeal_of_not_unsealed hkept hadmitted hold]

/-- A cohort of one and an intent in the queue can both be sealed. -/
theorem run_can_seal_first :
    ∃ door, openDoor doorStore ⟨1⟩ doorSession ⟨.replicate 0x44, doorStore⟩ .nativeFsyncProof =
        .ok door ∧
      (let now := door.run (ε := Unit) doorDigestOf
          [.admitIntent doorIncarnation doorSession, .beginFsyncWindow doorIncarnation doorSession]
        ∃ result, (now.sealDurableOverlapBatch doorDigestOf [(commits, contentOfCommit)]
          now.session).2 = .ok result) ∧
      let now := door.run (ε := Unit) doorDigestOf [.admitIntent doorIncarnation doorSession]
      ∃ committed, (now.sealDurable doorDigestOf ⟨⟨0⟩, doorStore, ⟨1⟩, doorIncarnation⟩ commits
        contentOfCommit now.session).2 = .ok committed := by
  have hopen : openDoor doorStore ⟨1⟩ doorSession ⟨.replicate 0x44, doorStore⟩ .nativeFsyncProof =
    .ok _ := rfl
  have hnone : ∀ door : SweepDoor, door.lastSealedIntent = none → ∀ o, door.Unsealed o := by
    intro door h o last hlast
    rw [h] at hlast
    cases hlast
  refine ⟨_, hopen, ?_, ?_⟩
  · refine (run_can_seal doorDigestOf hopen _).1 rfl (by decide) ?_ (by decide) _ rfl ?_
    · exact fun intent _ => hnone _ rfl _
    · exact fun w hw => by rw [mem_singleton.mp hw]; rfl
  · exact (((run_can_seal doorDigestOf hopen _).2 rfl _ (by decide)).1 (hnone _ rfl _)
      (by decide) _ _ rfl)

/-- The second intent is sealed first.  The first one, admitted and never sealed, is then the oldest
that waits, no window is open, and sealing it is refused. -/
theorem overtaken_intent_refused :
    ∃ door, openDoor doorStore ⟨1⟩ doorSession ⟨.replicate 0x44, doorStore⟩ .nativeFsyncProof =
        .ok door ∧
      let now := door.run doorDigestOf
        [.admitIntent doorIncarnation doorSession, .admitIntent doorIncarnation doorSession,
          .sealDurable ⟨⟨1⟩, doorStore, ⟨1⟩, doorIncarnation⟩ commits contentOfCommit doorSession]
      now.fsyncWindow = .closed ∧
        now.history.admitted.head? = some ⟨⟨0⟩, doorStore, ⟨1⟩, doorIncarnation⟩ ∧
        now.history.sealedIntents = [⟨1⟩] ∧
        (now.sealDurable doorDigestOf ⟨⟨0⟩, doorStore, ⟨1⟩, doorIncarnation⟩ commits contentOfCommit
          doorSession).2 = .error (.sweep .intentOrderRegression) :=
  ⟨_, rfl, rfl, rfl, rfl, rfl⟩

end SweepDoor

end Kyzo

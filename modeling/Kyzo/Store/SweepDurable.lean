import Kyzo.Store.SweepLive
import Mathlib.Data.List.TakeWhile

/-!
# Durable commits and their ordinals

Whether every transaction that a call commits durably gets an ordinal before the call returns, and
whether the intents that are not sealed can be tried again.  A batch whose first transactions commit
before one fails leaves them without an ordinal, and a window over an intent that is sealed already
never closes.  Calls that avoid both keep the door as its callers need it.
-/

namespace Kyzo

open List SweepDoor Nat Prod StableCommitCap

namespace SweepDoor

variable {sha : Bytes → Bytes32} {ε : Type} {door : SweepDoor}

/-- How many transactions a call commits durably: once all checks have passed, those before the
first one that fails. -/
def durable (door : SweepDoor) : SweepOp ε → ℕ
  | .sealDurable intent tx _ current =>
    if door.fsyncWindow = .closed ∧ (door.prepareSeal (ε := ε) intent current).isOk ∧
      tx.commitDurable.isOk then 1 else 0
  | .sealDurableOverlapBatch work current =>
    if door.fsyncWindow = .opened ∧ work.length = door.overlapCohort.length ∧
        ∀ i ∈ door.overlapCohort, (door.prepareSeal (ε := ε) i current).isOk then
      (work.takeWhile fun w => w.1.commitDurable.isOk).length
    else 0
  | _ => 0

/-- A call gives an ordinal to every transaction it commits durably. -/
def Records (sha : Bytes → Bytes32) (door : SweepDoor) (op : SweepOp ε) : Prop :=
  (door.step sha op).history.minted.length = door.history.minted.length + door.durable op

/-- Some further calls lead to where a durable seal of the intent succeeds with its transaction. -/
def Retriable (sha : Bytes → Bytes32) (ε : Type) (door : SweepDoor) (intent : AdmittedIntent) :
    Prop :=
  ∃ calls : List (SweepOp ε), ∀ (tx : WriteTx ε) (contentRoot : StateRoot),
    tx.commitDurable = .ok () → ∃ committed, ((door.run sha calls).sealDurable sha intent tx
      contentRoot door.session).2 = .ok committed

/-- The intents a call is to seal. -/
def presented (door : SweepDoor) : SweepOp ε → List AdmittedIntent
  | .admitIntent .. | .beginFsyncWindow .. => []
  | .sealApplied intent .. | .sealDurable intent .. => [intent]
  | .sealDurableOverlapBatch .. => door.overlapCohort

/-- The most ordinals a call may need. -/
def ordinalsFor : SweepOp ε → ℕ
  | .sealDurable .. => 1
  | .sealDurableOverlapBatch work _ => work.length
  | _ => 0

/-- What a call has to respect: ordinals are left, a batch commits as a whole or fails with its
first transaction, a window begins over unsealed intents only, and an intent presented alone was
admitted here, comes after the last one sealed and before the cohort of an open window. -/
def Careful (door : SweepDoor) (op : SweepOp ε) : Prop :=
  door.highestCommit.raw.toNat + ordinalsFor op + 1 < 2 ^ 64 ∧
    door.nextIntent.raw.toNat + 2 < 2 ^ 64 ∧
    match op with
    | .admitIntent .. => True
    | .beginFsyncWindow .. => ∀ i ∈ door.queue, door.Unsealed i.intentOrdinal
    | .sealApplied intent .. =>
      (intent ∈ door.history.admitted ∧ door.Unsealed intent.intentOrdinal) ∧
        ∀ i ∈ door.overlapCohort, intent.intentOrdinal.raw < i.intentOrdinal.raw
    | .sealDurable intent .. => intent ∈ door.history.admitted ∧ door.Unsealed intent.intentOrdinal
    | .sealDurableOverlapBatch work _ => (∀ w ∈ work, w.1.commitDurable.isOk) ∨
      ∀ w ∈ work.head?, ¬ w.1.commitDurable.isOk

/-- Every call of a run respects it. -/
def CarefulRun (sha : Bytes → Bytes32) (door : SweepDoor) : List (SweepOp ε) → Prop
  | [] => True
  | op :: ops => door.Careful op ∧ (door.step sha op).CarefulRun sha ops

/-! ## What careful calls keep -/

/-- A door whose open window holds only unsealed intents, and which has sealed only what it
admitted. -/
structure Live (sha : Bytes → Bytes32) (door : SweepDoor) : Prop where
  kept : door.Kept sha
  fresh : ∀ i ∈ door.overlapCohort, door.Unsealed i.intentOrdinal
  below : ∀ last ∈ door.lastSealedIntent, last.raw < door.nextIntent.raw

/-- What a call leaves: a live door with as many more ordinals as it committed durably, and its own
intents sealed or as open as they were. -/
structure Leaves (sha : Bytes → Bytes32) (door : SweepDoor) (op : SweepOp ε) : Prop where
  live : (door.step sha op).Live sha
  count : (door.step sha op).highestCommit.raw.toNat =
    door.highestCommit.raw.toNat + door.durable op
  next : (door.step sha op).nextIntent.raw.toNat ≤ door.nextIntent.raw.toNat + 1
  own : ∀ intent ∈ door.presented op, intent ∈ (door.step sha op).history.admitted ∧
    (intent.intentOrdinal ∈ (door.step sha op).history.sealedIntents ∨
      (door.step sha op).Unsealed intent.intentOrdinal)

lemma isOk_iff {result : Except ε Unit} : result.isOk = true ↔ result = .ok () := by
  rcases result with e | ⟨⟩
  · exact iff_of_false Bool.false_ne_true (fun h => by cases h)
  · exact iff_of_true rfl rfl

lemma Kept.length_minted (h : door.Kept sha) :
    door.history.minted.length = door.highestCommit.raw.toNat := by
  have hlen := congrArg length h.chains.minted
  rwa [length_map, length_range'] at hlen

lemma Kept.lt_nextIntent (h : door.Kept sha) {intent : AdmittedIntent}
    (hmem : intent ∈ door.history.admitted) : intent.intentOrdinal.raw < door.nextIntent.raw := by
  have hcount := mem_map_of_mem (f := fun i => i.intentOrdinal.raw.toNat) hmem
  rw [show door.history.admitted.map (fun i => i.intentOrdinal.raw.toNat) =
    range door.nextIntent.raw.toNat from h.queue.admitted] at hcount
  exact UInt64.lt_iff_toNat_lt.mpr (mem_range.mp hcount)

section

variable (h : door.Live sha)

include h

lemma Leaves.of_same {op : SweepOp ε} (hsame : door.step sha op = door)
    (hdurable : door.durable op = 0) (hown : ∀ intent ∈ door.presented op,
      intent ∈ door.history.admitted ∧ door.Unsealed intent.intentOrdinal) :
    door.Leaves sha op := by
  refine ⟨?_, ?_, ?_, ?_⟩ <;> rw [hsame]
  · exact h
  · rw [hdurable, add_zero]
  · exact le_succ _
  · exact fun intent hi => (hown intent hi).imp_right .inr

section

variable (incarnationId : IncarnationId) (current : SweepSession)

lemma Live.admitIntent : door.Leaves (ε := ε) sha (.admitIntent incarnationId current) := by
  have hkept := h.kept.step (.admitIntent incarnationId current : SweepOp ε)
  rcases door.admitIntent_cases incarnationId current with
    hsame | ⟨-, next, intent, hnext, rfl, -, hdoor⟩
  · exact .of_same h hsame rfl (forall_mem_nil _)
  · have hsucc := checkedSucc_eq_some.mp hnext
    have hbelow : ∀ last ∈ door.lastSealedIntent, last.raw < next := by
      intro last hlast
      exact UInt64.lt_trans (h.below last hlast) (UInt64.lt_iff_toNat_lt.mpr (by omega))
    rcases hdoor with ⟨-, hdoor⟩ | ⟨-, hdoor⟩
    · refine ⟨⟨hkept, ?_, ?_⟩, ?_, ?_, forall_mem_nil _⟩ <;> rw [step, hdoor]
      · exact forall_mem_append.mpr ⟨h.fresh, forall_mem_singleton.mpr h.below⟩
      · exact hbelow
      · rfl
      · exact hsucc.le
    · refine ⟨⟨hkept, ?_, ?_⟩, ?_, ?_, forall_mem_nil _⟩ <;> rw [step, hdoor]
      · exact h.fresh
      · exact hbelow
      · rfl
      · exact hsucc.le

lemma Live.beginFsyncWindow (hqueue : ∀ i ∈ door.queue, door.Unsealed i.intentOrdinal) :
    door.Leaves (ε := ε) sha (.beginFsyncWindow incarnationId current) := by
  have hkept := h.kept.step (.beginFsyncWindow incarnationId current : SweepOp ε)
  rcases door.beginFsyncWindow_cases incarnationId current with hsame | ⟨-, -, hdoor⟩
  · exact .of_same h hsame rfl (forall_mem_nil _)
  · refine ⟨⟨hkept, ?_, ?_⟩, ?_, ?_, forall_mem_nil _⟩ <;> rw [step, hdoor]
    · exact fun i hi => (mem_append.mp hi).elim (h.fresh i) (hqueue i)
    · exact h.below
    · rfl
    · exact le_succ _

end

variable (intent : AdmittedIntent) (tx : WriteTx ε)

lemma Live.sealApplied (current : SweepSession)
    (hintent : intent ∈ door.history.admitted ∧ door.Unsealed intent.intentOrdinal)
    (hcohort : ∀ i ∈ door.overlapCohort, intent.intentOrdinal.raw < i.intentOrdinal.raw) :
    door.Leaves sha (.sealApplied intent tx current) := by
  have hkept := h.kept.step (.sealApplied intent tx current)
  rcases door.sealApplied_cases intent tx current with hsame | ⟨-, hdoor⟩
  · exact .of_same h hsame rfl (forall_mem_singleton.mpr hintent)
  · refine ⟨⟨hkept, ?_, ?_⟩, ?_, ?_, forall_mem_singleton.mpr ?_⟩ <;> rw [step, hdoor]
    · rintro i hi last hlast
      cases hlast
      exact hcohort i hi
    · intro last hlast
      cases hlast
      exact h.kept.lt_nextIntent hintent.1
    · rfl
    · exact le_succ _
    · exact ⟨hintent.1, .inl (mem_append_right _ (mem_singleton_self _))⟩

lemma Live.sealDurable (contentRoot : StateRoot) (current : SweepSession)
    (hintent : intent ∈ door.history.admitted ∧ door.Unsealed intent.intentOrdinal)
    (hleft : door.highestCommit.raw.toNat + 1 < 2 ^ 64) :
    door.Leaves sha (.sealDurable intent tx contentRoot current) := by
  have hkept := h.kept.step (.sealDurable intent tx contentRoot current)
  by_cases hpass : door.fsyncWindow = .closed ∧
      (door.prepareSeal (ε := ε) intent current).isOk ∧ tx.commitDurable.isOk
  · obtain ⟨raw, hraw⟩ := Option.isSome_iff_exists.mp
      ((isSome_checkedSucc door.highestCommit.raw).mpr hleft)
    have hdurable : door.durable (.sealDurable intent tx contentRoot current) = 1 := if_pos hpass
    obtain ⟨hwindow, hprepare, htx⟩ := hpass
    have hdoor : ∃ batch, door.step sha (.sealDurable intent tx contentRoot current) =
        { door.afterMint sha intent.intentOrdinal contentRoot ⟨raw⟩ with
          lastOverlapBatch := batch } := by
      rw [step, SweepDoor.sealDurable, hwindow, isOk_iff.mp hprepare]
      simp only [barrier_eq, isOk_iff.mp htx,
        mintCommittedAfterBarrier_eq h.kept.chains, hraw]
      exact ⟨_, rfl⟩
    obtain ⟨batch, hdoor⟩ := hdoor
    refine ⟨⟨hkept, ?_, ?_⟩, ?_, ?_, forall_mem_singleton.mpr ?_⟩ <;> rw [hdoor]
    · have hnone : door.overlapCohort = [] := h.kept.queue.closed hwindow
      intro i (hi : i ∈ door.overlapCohort)
      exact absurd (hnone ▸ hi) not_mem_nil
    · intro last hlast
      cases hlast
      exact h.kept.lt_nextIntent hintent.1
    · rw [hdurable]
      exact checkedSucc_eq_some.mp hraw
    · exact le_succ _
    · exact ⟨hintent.1, .inl (mem_append_right _ (mem_singleton_self _))⟩
  · refine .of_same h ?_ (if_neg hpass) (forall_mem_singleton.mpr hintent)
    rw [step, SweepDoor.sealDurable]
    split_ifs with hwindow
    · rfl
    · rcases hprepare : door.prepareSeal intent current with e | ⟨⟩
      · rfl
      · rcases htx : tx.commitDurable with e | ⟨⟩
        · simp [barrier_eq, htx]
        · refine absurd ⟨?_, by rw [hprepare]; rfl, by rw [htx]; rfl⟩ hpass
          rcases hw : door.fsyncWindow with _ | _
          · rfl
          · exact absurd hw hwindow

end

/-! ## Batches -/

/-- The checks of a batch. -/
structure BatchReady (door : SweepDoor) (work : List (WriteTx ε × StateRoot))
    (current : SweepSession) : Prop where
  window : door.fsyncWindow = .opened
  length : work.length = door.overlapCohort.length
  cohort : door.overlapCohort ≠ []
  prepared : ∀ i ∈ door.overlapCohort, door.prepareSeal (ε := ε) i current = .ok ()

variable {work : List (WriteTx ε × StateRoot)} {current : SweepSession}

section

variable (sha) (h : door.BatchReady work current)
include h

lemma BatchReady.step : door.step sha (.sealDurableOverlapBatch work current) =
      match (work.map fst).forM fun tx => tx.commitDurable with
      | .error _ => { door with overlapCohort := [], fsyncWindow := .closed }
      | .ok () =>
        match mintAll (ε := ε) sha { door with overlapCohort := [] }
          (door.overlapCohort.zip (work.map snd)) with
        | (door', .error _) => door'
        | (door', .ok committed) =>
          { door' with
            lastOverlapBatch := some ⟨door.overlapCohort.map AdmittedIntent.intentOrdinal,
              committed.map Committed.commitOrdinal⟩
            fsyncWindow := .closed } := by
  have hprepare : door.overlapCohort.forM
      (fun intent => door.prepareSeal intent current) = .ok () :=
    forM_eq_ok.mpr h.prepared
  rw [SweepDoor.step, sealDurableOverlapBatch, if_neg (not_not.mpr h.window),
    if_neg (not_not.mpr h.length), if_neg h.cohort]
  simp only [hprepare, barrier_eq]
  rcases (work.map fst).forM fun tx => tx.commitDurable with e | ⟨⟩
  · rfl
  · rcases mintAll sha { door with overlapCohort := [] }
      (door.overlapCohort.zip (work.map snd)) with ⟨door', e | committed⟩ <;> rfl

lemma BatchReady.step_of_failure {w : WriteTx ε × StateRoot} (hw : w ∈ work)
    (hfails : ¬ w.1.commitDurable.isOk) :
    door.step sha (.sealDurableOverlapBatch work current) =
      { door with overlapCohort := [], fsyncWindow := .closed } := by
  rw [h.step]
  rcases hall : (work.map fst).forM fun tx => tx.commitDurable with e | ⟨⟩
  · rfl
  · exact absurd (isOk_iff.mpr (forM_eq_ok.mp hall _ (mem_map_of_mem hw))) hfails

end

section

variable (h : door.Live sha)
include h

lemma Live.sealDurableOverlapBatch (work : List (WriteTx ε × StateRoot))
    (current : SweepSession) (hleft : door.highestCommit.raw.toNat + work.length < 2 ^ 64)
    (hwork : (∀ w ∈ work, w.1.commitDurable.isOk) ∨ ∀ w ∈ work.head?, ¬ w.1.commitDurable.isOk) :
    door.Leaves sha (.sealDurableOverlapBatch work current) := by
  have hkept := h.kept.step (.sealDurableOverlapBatch work current)
  have hadmitted : ∀ i ∈ door.overlapCohort, i ∈ door.history.admitted := fun i hi =>
    h.kept.queue.subset i (mem_append_left _ hi)
  by_cases hready : door.BatchReady work current
  · have hdurable : door.durable (.sealDurableOverlapBatch work current) =
        (work.takeWhile fun w => w.1.commitDurable.isOk).length :=
      if_pos ⟨hready.window, hready.length, fun i hi => isOk_iff.mpr (hready.prepared i hi)⟩
    by_cases hall : ∀ w ∈ work, w.1.commitDurable.isOk
    · have hchains : Chains sha { door with overlapCohort := [] } := { h.kept.chains with }
      have hzip : (door.overlapCohort.zip (work.map snd)).length = work.length := by
        rw [length_zip, length_map, hready.length, min_self]
      rw [← hzip] at hleft
      obtain ⟨⟨committed, hmint⟩, hcount, hview, hlast, hsealed⟩ := mintAll_eq_ok hchains hleft
      have hbarrier : (work.map fst).forM (fun tx => tx.commitDurable) = .ok () := by
        refine forM_eq_ok.mpr fun tx htx => ?_
        obtain ⟨w, hw, rfl⟩ := mem_map.mp htx
        exact isOk_iff.mp (hall w hw)
      have hdoor := hready.step sha
      rw [hbarrier] at hdoor
      generalize mintAll sha { door with overlapCohort := [] }
        (door.overlapCohort.zip (work.map snd)) = minted
        at hmint hcount hview hlast hsealed hdoor
      obtain ⟨door', result⟩ := minted
      obtain rfl : result = .ok committed := hmint
      have hcohort : door'.overlapCohort = [] := congrArg QueueView.overlapCohort hview
      have hnext : door'.nextIntent = door.nextIntent := congrArg QueueView.nextIntent hview
      refine ⟨⟨hkept, ?_, ?_⟩, ?_, ?_, fun i hi => ?_⟩ <;> rw [hdoor]
      · intro i (hi : i ∈ door'.overlapCohort)
        exact absurd (hcohort ▸ hi) not_mem_nil
      · intro last (hmem : last ∈ door'.lastSealedIntent)
        rw [hnext]
        rcases hlast last hmem with hsealed | ⟨e, he, rfl⟩
        · exact h.below last hsealed
        · exact h.kept.lt_nextIntent (hadmitted _ (of_mem_zip he).1)
      · rw [hdurable, takeWhile_eq_self_iff.mpr hall, ← hzip]
        exact hcount
      · exact hnext.symm ▸ le_succ _
      · have hhistory : door'.history.admitted = door.history.admitted :=
          congrArg QueueView.admitted hview
        refine ⟨hhistory ▸ hadmitted i hi, .inl ?_⟩
        change i.intentOrdinal ∈ door'.history.sealedIntents
        rw [hsealed, map_fst_zip (by rw [length_map, hready.length])]
        exact mem_append_right _ (mem_map_of_mem hi)
    · obtain hfirst := hwork.resolve_left hall
      obtain ⟨w, rest, rfl⟩ : ∃ w rest, work = w :: rest := by
        refine exists_cons_of_ne_nil fun hnil => hall ?_
        simp [hnil]
      have hdoor := hready.step_of_failure sha mem_cons_self (hfirst w rfl)
      refine ⟨⟨hkept, ?_, ?_⟩, ?_, ?_, fun i hi => ?_⟩ <;> rw [hdoor]
      · exact fun i hi => absurd hi not_mem_nil
      · exact h.below
      · have hnone : (w :: rest).takeWhile (fun w => w.1.commitDurable.isOk) = [] :=
          takeWhile_cons_of_neg (hfirst w rfl)
        rw [hdurable, hnone]
        rfl
      · exact le_succ _
      · exact ⟨hadmitted i hi, .inr (h.fresh i hi)⟩
  · refine .of_same h ?_ ?_ fun i hi => ⟨hadmitted i hi, h.fresh i hi⟩
    · refine (sealDurableOverlapBatch_cases sha door work current).resolve_right ?_
      rintro ⟨hne, hlen, hwindow, hprepare, -⟩
      exact hready ⟨hwindow, hlen, hne, hprepare⟩
    · rw [durable]
      split_ifs with hchecks
      · obtain ⟨hwindow, hlen, hprepare⟩ := hchecks
        have hnil : door.overlapCohort = [] := by
          by_contra hne
          exact hready ⟨hwindow, hlen, hne, fun i hi => isOk_iff.mp (hprepare i hi)⟩
        rw [hnil] at hlen
        rw [length_eq_zero_iff.mp hlen]
        rfl
      · rfl

/-- **Step.**  A careful call leaves a live door and an ordinal for each durable commit. -/
theorem Live.step {op : SweepOp ε} (hop : door.Careful op) : door.Leaves sha op := by
  obtain ⟨hleft, -, hop⟩ := hop
  match op with
  | .admitIntent incarnationId current => exact h.admitIntent incarnationId current
  | .beginFsyncWindow incarnationId current => exact h.beginFsyncWindow incarnationId current hop
  | .sealApplied intent tx current => exact h.sealApplied intent tx current hop.1 hop.2
  | .sealDurable intent tx contentRoot current =>
    exact h.sealDurable intent tx contentRoot current hop (lt_of_succ_lt hleft)
  | .sealDurableOverlapBatch work current =>
    exact h.sealDurableOverlapBatch work current (lt_of_succ_lt hleft) hop

/-- **Run.** -/
theorem Live.run {ops rest : List (SweepOp ε)} (hops : door.CarefulRun sha (ops ++ rest)) :
    (door.run sha ops).Live sha ∧ (door.run sha ops).CarefulRun sha rest := by
  induction ops generalizing door with
  | nil => exact ⟨h, hops⟩
  | cons op ops ih => exact ih (h.step hops.1).live hops.2

/-! ## Trying again -/

section

variable (hwindow : door.fsyncWindow = .opened) (hne : door.overlapCohort ≠ [])
include hwindow hne

lemma Live.closes (failure : ε) : ∃ op : SweepOp ε, door.step sha op =
      { door with overlapCohort := [], fsyncWindow := .closed } := by
  let work : List (WriteTx ε × StateRoot) :=
    door.overlapCohort.map fun _ => (⟨.error failure, .error failure⟩, ⟨.replicate 0⟩)
  have hready : door.BatchReady work door.session :=
    ⟨hwindow, length_map _, hne, fun i hi => prepareSeal_of_unsealed h.kept
      (h.kept.queue.subset i (mem_append_left _ hi)) (h.fresh i hi)⟩
  obtain ⟨i, hi⟩ := exists_mem_of_ne_nil _ hne
  exact ⟨_, hready.step_of_failure sha (mem_map_of_mem hi) Bool.false_ne_true⟩

lemma Live.retriable_of_cohort (hleft : door.highestCommit.raw.toNat + 1 < 2 ^ 64)
    (failure : ε) {intent : AdmittedIntent} (hadmitted : intent ∈ door.history.admitted)
    (hnew : door.Unsealed intent.intentOrdinal) : door.Retriable sha ε intent := by
  obtain ⟨op, hdoor⟩ := h.closes hwindow hne failure
  refine ⟨[op], fun tx contentRoot htx => ?_⟩
  have hkept := h.kept.step op
  change ∃ committed, ((door.step sha op).sealDurable sha intent tx contentRoot
    door.session).2 = .ok committed
  rw [hdoor] at hkept ⊢
  exact sealDurable_eq_ok hkept rfl hadmitted hnew hleft htx contentRoot

end

lemma Live.retriable (hleft : door.highestCommit.raw.toNat + 1 < 2 ^ 64)
    (hnext : door.nextIntent.raw.toNat + 1 < 2 ^ 64) (failure : ε) {intent : AdmittedIntent}
    (hadmitted : intent ∈ door.history.admitted) (hnew : door.Unsealed intent.intentOrdinal) :
    door.Retriable sha ε intent := by
  rcases hwindow : door.fsyncWindow with _ | _
  · exact ⟨[], fun tx contentRoot htx =>
      sealDurable_eq_ok h.kept hwindow hadmitted hnew hleft htx contentRoot⟩
  by_cases hne : door.overlapCohort = []
  · -- A batch needs a member, so one more intent is admitted first.
    obtain ⟨raw, hraw⟩ := Option.isSome_iff_exists.mp
      ((isSome_checkedSucc door.nextIntent.raw).mpr hnext)
    have hcheck : door.recheckSession door.session.incarnationId door.session = .ok () :=
      recheckSession_eq_ok.mpr ⟨rfl, rfl, h.kept.queue.session.2, h.kept.queue.session.1⟩
    have hlive := (h.admitIntent (ε := ε) door.session.incarnationId door.session).live
    simp only [SweepDoor.step, SweepDoor.admitIntent, hcheck, IntentOrdinal.successor, hraw,
      hwindow] at hlive
    obtain ⟨calls, hcalls⟩ := hlive.retriable_of_cohort rfl (append_ne_nil_of_right_ne_nil _
      (cons_ne_nil _ _)) hleft failure (mem_append_left _ hadmitted) hnew
    refine ⟨.admitIntent door.session.incarnationId door.session :: calls,
      fun tx contentRoot htx => ?_⟩
    simpa only [SweepDoor.run, foldl_cons, SweepDoor.step, SweepDoor.admitIntent, hcheck,
      IntentOrdinal.successor, hraw, hwindow] using hcalls tx contentRoot htx
  · exact h.retriable_of_cohort hwindow hne hleft failure hadmitted hnew

end

lemma durable_le_ordinalsFor (door : SweepDoor) (op : SweepOp ε) :
    door.durable op ≤ ordinalsFor op := by
  match op with
  | .admitIntent .. | .beginFsyncWindow .. | .sealApplied .. => exact le_rfl
  | .sealDurable .. =>
    rw [durable, ordinalsFor]
    split_ifs <;> omega
  | .sealDurableOverlapBatch work _ =>
    rw [durable]
    split_ifs
    · refine IsPrefix.length_le ?_
      exact takeWhile_prefix _
    · exact zero_le _

end SweepDoor

end Kyzo

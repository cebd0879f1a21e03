import Kyzo.Store.WalChain

/-!
# The floors of a replay

Replay keeps the last record of each kind: a later ceiling, ordinal or incarnation replaces an
earlier one, also a higher one.  So its floors bound the records of a log exactly where the last
record of each kind is the highest.
-/

namespace Kyzo

open Option List

variable (sha : Bytes → Bytes32)

def WalFloors.nonceCeiling (floors : WalFloors) : MintDomain → DomainCounter
  | .commit => floors.commitNonceCeiling
  | .compact => floors.compactNonceCeiling
  | .rotate => floors.rotateNonceCeiling

/-- The ceilings recorded for a domain, in order. -/
def ceilingsOf (domain : MintDomain) (payloads : List WalPayload) : List UInt64 :=
  payloads.filterMap fun
    | .nonceFloor d ceiling => if d = domain then some ceiling.raw else none
    | _ => none

/-- The ordinals of commits, in order. -/
def ordinalsOf (payloads : List WalPayload) : List UInt64 :=
  payloads.filterMap fun
    | .commit commitOrdinal _ => some commitOrdinal.raw
    | _ => none

/-- The open ordinals of sealed incarnations, in order. -/
def incarnationsOf (payloads : List WalPayload) : List UInt64 :=
  payloads.filterMap fun
    | .incarnationSealed incarnationId => some incarnationId.openOrdinal.raw
    | _ => none

/-- The last of the numbers is the highest. -/
def EndsHighest (recorded : List UInt64) : Prop :=
  ∀ last ∈ recorded.getLast?, ∀ n ∈ recorded, n ≤ last

/-- The floors bound what was recorded: ceilings by domain, ordinals and incarnations. -/
structure WalFloors.Bounds (floors : WalFloors) (payloads : List WalPayload) : Prop where
  ceilings : ∀ domain, ∀ n ∈ ceilingsOf domain payloads, n ≤ (floors.nonceCeiling domain).raw
  ordinals : ∀ n ∈ ordinalsOf payloads, ∃ highest ∈ floors.highestCommitOrdinal, n ≤ highest.raw
  incarnations : ∀ n ∈ incarnationsOf payloads,
    ∃ highest ∈ floors.highestIncarnation, n ≤ highest.openOrdinal.raw

lemma getLast?_getD_cons (first before : UInt64) (rest : List UInt64) :
    ((first :: rest).getLast?).getD before = (rest.getLast?).getD first := by
  rw [getLast?_cons, getD_some]

/-- **Replay keeps the last** ceiling of each domain, ordinal and incarnation. -/
theorem floors_replayed (st : WalReplayState) (payloads : List WalPayload) :
    (∀ domain, ((replayed sha st payloads).floors.nonceCeiling domain).raw =
      (ceilingsOf domain payloads).getLast?.getD (st.floors.nonceCeiling domain).raw) ∧
    (replayed sha st payloads).floors.highestCommitOrdinal.map CommitOrdinal.raw =
      (ordinalsOf payloads).getLast?.or (st.floors.highestCommitOrdinal.map CommitOrdinal.raw) ∧
    (replayed sha st payloads).floors.highestIncarnation.map (·.openOrdinal.raw) =
      (incarnationsOf payloads).getLast?.or
        (st.floors.highestIncarnation.map (·.openOrdinal.raw)) := by
  induction payloads generalizing st with
  | nil => exact ⟨fun _ => rfl, rfl, rfl⟩
  | cons payload payloads ih =>
    obtain ⟨hceilings, hordinals, hincarnations⟩ := ih (replayStep sha st payload)
    have hstep : replayed sha st (payload :: payloads) =
        replayed sha (replayStep sha st payload) payloads := rfl
    rw [hstep]
    refine ⟨fun domain => ?_, ?_, ?_⟩
    · rw [hceilings]
      rcases payload with _ | ⟨d, c⟩ | _
      · rfl
      · by_cases hd : d = domain
        · subst hd
          have hcons : ceilingsOf d (.nonceFloor d c :: payloads) =
              c.raw :: ceilingsOf d payloads := by
            simp [ceilingsOf]
          rw [hcons, getLast?_getD_cons]
          cases d <;> rfl
        · cases d <;> cases domain <;> first | rfl | exact absurd rfl hd
      · rfl
    · rw [hordinals]
      rcases payload with ⟨o, b⟩ | ⟨d, c⟩ | _
      · have hcons : ordinalsOf (.commit o b :: payloads) = o.raw :: ordinalsOf payloads := rfl
        rw [hcons, getLast?_cons]
        cases (ordinalsOf payloads).getLast? <;> rfl
      · cases d <;> rfl
      · rfl
    · rw [hincarnations]
      rcases payload with _ | ⟨d, c⟩ | i
      · rfl
      · cases d <;> rfl
      · have hcons : incarnationsOf (.incarnationSealed i :: payloads) =
            i.openOrdinal.raw :: incarnationsOf payloads := rfl
        rw [hcons, getLast?_cons]
        cases (incarnationsOf payloads).getLast? <;> rfl

lemma forall_le_getLast?_getD (recorded : List UInt64) (before : UInt64) :
    (∀ n ∈ recorded, n ≤ recorded.getLast?.getD before) ↔ EndsHighest recorded := by
  unfold EndsHighest
  cases hlast : recorded.getLast? with
  | none => simp [getLast?_eq_none_iff.mp hlast]
  | some last => simp

lemma forall_exists_le_iff {α : Type} {read : α → UInt64} {highest : Option α}
    {recorded : List UInt64} (h : highest.map read = recorded.getLast?) :
    (∀ n ∈ recorded, ∃ top ∈ highest, n ≤ read top) ↔ EndsHighest recorded := by
  unfold EndsHighest
  cases hlast : recorded.getLast? with
  | none => simp [getLast?_eq_none_iff.mp hlast]
  | some last =>
    rw [hlast] at h
    obtain ⟨top, htop, rfl⟩ := map_eq_some_iff.mp h
    simp [htop]

/-- **The floors of an accepted log bound its records** exactly where the last ceiling of each
domain, the last ordinal and the last incarnation are the highest recorded. -/
theorem replay_floors_bound_iff {storeId : StoreId} {segments : List WalSegment}
    {st : WalReplayState} (h : replay sha storeId segments = .ok st) :
    st.floors.Bounds (payloadsOf segments) ↔
      (∀ domain, EndsHighest (ceilingsOf domain (payloadsOf segments))) ∧
        EndsHighest (ordinalsOf (payloadsOf segments)) ∧
        EndsHighest (incarnationsOf (payloadsOf segments)) := by
  obtain ⟨-, -, rfl⟩ := (replay_eq_ok sha).mp h
  obtain ⟨hceilings, hordinals, hincarnations⟩ :=
    floors_replayed sha ⟨.genesis, [], genesisPredecessor⟩ (payloadsOf segments)
  rw [← forall_exists_le_iff (hordinals.trans or_none),
    ← forall_exists_le_iff (hincarnations.trans or_none)]
  have hdomain : ∀ domain, (∀ n ∈ ceilingsOf domain (payloadsOf segments),
      n ≤ ((replayed sha ⟨.genesis, [], genesisPredecessor⟩
        (payloadsOf segments)).floors.nonceCeiling domain).raw) ↔
      EndsHighest (ceilingsOf domain (payloadsOf segments)) := by
    intro domain
    rw [hceilings domain, forall_le_getLast?_getD]
  exact ⟨fun h => ⟨fun domain => (hdomain domain).mp (h.ceilings domain), h.ordinals,
    h.incarnations⟩, fun h => ⟨fun domain => (hdomain domain).mpr (h.1 domain), h.2.1, h.2.2⟩⟩

def reservingStore : StoreId := ⟨.replicate 0x11⟩

/-- A log of one segment that reserves the given ceilings for commits. -/
def reservations (sha : Bytes → Bytes32) (ceilings : List UInt64) : List WalSegment :=
  [⟨reservingStore, ⟨1⟩, 0, sealAll sha genesisPredecessor
    (ceilings.map fun c => .nonceFloor .commit ⟨c⟩)⟩]

lemma payloadsOf_reservations (ceilings : List UInt64) : payloadsOf (reservations sha ceilings) =
      ceilings.map fun c => .nonceFloor .commit ⟨c⟩ := by
  rw [payloadsOf, recordsOf, reservations, flatMap_singleton, map_payload_sealAll]

lemma replay_reservations (ceilings : List UInt64) :
    replay sha reservingStore (reservations sha ceilings) =
      .ok (replayed sha ⟨.genesis, [], genesisPredecessor⟩
        (ceilings.map fun c => .nonceFloor .commit ⟨c⟩)) := by
  refine (replay_eq_ok sha).mpr ⟨?_, ?_, ?_⟩
  · simp [reservations, Headed, and_self]
  · rw [payloadsOf_reservations, recordsOf, reservations, flatMap_singleton]
  · rw [payloadsOf_reservations]

/-- Under every hash function, a lower reservation after a higher one lowers the floor. -/
theorem replay_lowers_ceiling :
    ∃ (storeId : StoreId) (log : (Bytes → Bytes32) → List WalSegment), ∀ sha, ∃ st,
      replay sha storeId (log sha) = .ok st ∧
        payloadsOf (log sha) = [.nonceFloor .commit ⟨10⟩, .nonceFloor .commit ⟨5⟩] ∧
        st.floors.commitNonceCeiling = ⟨5⟩ ∧ ¬ st.floors.Bounds (payloadsOf (log sha)) := by
  refine ⟨reservingStore, fun sha => reservations sha [10, 5], fun sha =>
    ⟨_, replay_reservations sha [10, 5], payloadsOf_reservations sha _, rfl, fun h => ?_⟩⟩
  have hle : (10 : UInt64) ≤ 5 := h.ceilings .commit 10 (.head _)
  exact absurd hle (by decide)

/-- Reservations that go up. -/
theorem replay_floors_bound_rising : ∃ st, replay (fun _ => .replicate 1) reservingStore
        (reservations (fun _ => .replicate 1) [5, 10]) = .ok st ∧
      st.floors.Bounds (payloadsOf (reservations (fun _ => .replicate 1) [5, 10])) := by
  refine ⟨_, replay_reservations _ [5, 10],
    (replay_floors_bound_iff _ (replay_reservations _ [5, 10])).mpr ?_⟩
  have hnone : EndsHighest [] := fun last hlast => by cases hlast
  have hrising : EndsHighest [5, 10] := by
    intro last hlast n hn
    cases hlast
    rcases mem_pair.mp hn with rfl | rfl <;> decide
  refine ⟨fun domain => ?_, hnone, hnone⟩
  cases domain with
  | commit => exact hrising
  | _ => exact hnone

end Kyzo

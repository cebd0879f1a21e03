import Kyzo.Exec.Levels

/-!
# The delta stores

The working memory of the fixpoint.  An epoch derives into an out-store, a set of rows
(`RegularTempStore`) or groups folded through meets (`MeetAggrStore`); at the barrier
`EpochStore.mergeIn` seals it as the newest level of the rule's total.  Scans walk the level stack
newest first, over everything or over the newest level alone, which is the delta.
-/

namespace Kyzo

open List

/-- "temp store row bytes failed bare decode" (`TempStoreCorruptRefuse`). -/
structure TempStoreCorruptRefuse where
  source : DecodeError

lemma OwnBareKey.lawful_of_decode {k : OwnBareKey} {vs : List RawValue}
    (h : decodeTupleBare k.bytes = .ok vs) : ∀ v ∈ vs, v.Lawful := by
  obtain ⟨t, ht⟩ := k.minted
  rw [← ht, Tuple.decodeTupleBare_bare] at h
  split at h
  · cases h
    intro v hv
    obtain ⟨w, -, rfl⟩ := mem_map.mp hv
    exact w.property
  · cases h

def OwnBareKey.decodeTuple (k : OwnBareKey) : Except TempStoreCorruptRefuse Tuple :=
  match h : decodeTupleBare k.bytes with
  | .ok vs => .ok (vs.pmap Subtype.mk (lawful_of_decode h))
  | .error e => .error ⟨e⟩

/-! ## Out-stores -/

/-- A set of rows with their limiter dispositions (`RegularTempStore`). -/
structure RegularTempStore where
  inner : Std.TreeMap OwnBareKey LimiterSkip compare

namespace RegularTempStore

/-- `RegularTempStore::default`. -/
def empty : RegularTempStore := ⟨∅⟩

variable (s : RegularTempStore)

/-- `RegularTempStore::exists`. -/
def existsKey (key : Tuple) : Bool := s.inner.contains (.encode key)

def len : ℕ := s.inner.size

def put (tuple : Tuple) : RegularTempStore :=
  ⟨s.inner.insert (.encode tuple) .included⟩

def putWithSkip (tuple : Tuple) : RegularTempStore :=
  ⟨s.inner.insert (.encode tuple) .pastLimit⟩

end RegularTempStore

/-- Where the grouping keys and the meet values of a head sit (`MeetLayout`). -/
structure MeetLayout where
  keyPositions : List ℕ
  valPositions : List ℕ
  arity : ℕ
  /-- Positions stand in head order. -/
  keys_ascend : keyPositions.Pairwise (· < ·)
  vals_ascend : valPositions.Pairwise (· < ·)
  /-- Together they are the positions of the head, each of one kind. -/
  mem_iff : ∀ p, p < arity ↔ p ∈ keyPositions ∨ p ∈ valPositions
  disjoint : ∀ p ∈ keyPositions, p ∉ valPositions

namespace MeetLayout

def fromSignature (aggrs : List HeadAggrSlot) : MeetLayout where
  keyPositions := (range aggrs.length).filter fun i => !aggrs[i]?.any (·.isAggregated)
  valPositions := (range aggrs.length).filter fun i => aggrs[i]?.any (·.isAggregated)
  arity := aggrs.length
  keys_ascend := pairwise_lt_range.filter _
  vals_ascend := pairwise_lt_range.filter _
  mem_iff p := by
    simp only [mem_filter, mem_range]
    cases aggrs[p]?.any (·.isAggregated) <;> simp
  disjoint p := by
    simp only [mem_filter, mem_range]
    cases aggrs[p]?.any (·.isAggregated) <;> simp

variable (l : MeetLayout)

def projectKey (row : Tuple) : Tuple :=
  l.keyPositions.map fun p => row.getD p .null

def isSuffix : Bool := l.keyPositions == range l.keyPositions.length

def borrowKey (row : Tuple) : OwnBareKey :=
  if l.isSuffix then .encode (row.take l.keyPositions.length) else .encode (l.projectKey row)

/-- Write values at positions, in order. -/
def fill (row : Tuple) : List ℕ → List DataValue → Tuple
  | p :: positions, v :: values => fill (row.set p v) positions values
  | _, _ => row

def interleave (key : OwnBareKey) (vals : List MeetAccum) : Except TempStoreCorruptRefuse Tuple :=
  do
    let key ← key.decodeTuple
    let row := fill (replicate l.arity .null) l.keyPositions key
    return fill row l.valPositions (vals.map MeetAccum.toValue)

end MeetLayout

/-- Fold incoming accumulators into a group's, position by position: the loop every fold site
runs. -/
def updateAll :
    List MeetAggr → List MeetAccum → List MeetAccum → Except AggrError (Bool × List MeetAccum)
  | op :: meets, l :: vals, r :: incoming => do
    let (changed, l) ← op.update l r
    let (changed', vals) ← updateAll meets vals incoming
    return (changed || changed', l :: vals)
  | _, vals, _ => .ok (false, vals)

/-- Groups folded through meets (`MeetAggrStore`). -/
structure MeetAggrStore where
  byGroup : Std.TreeMap OwnBareKey (List MeetAccum) compare
  meets : List MeetAggr
  layout : MeetLayout

/-- "internal invariant violated: normal-only aggregation '..' routed to a meet store". -/
structure NormalOnlyAggregation where
  name : String

namespace MeetAggrStore

/-- The operations of a head signature, in head order. -/
def resolveMeets : List HeadAggrSlot → Except NormalOnlyAggregation (List MeetAggr)
  | [] => .ok []
  | .plain :: aggrs => resolveMeets aggrs
  | .aggregated aggr _ :: aggrs =>
    match meetOp aggr with
    | none => .error ⟨aggr.name⟩
    | some op => (resolveMeets aggrs).map (op :: ·)

def new (aggrs : List HeadAggrSlot) : Except NormalOnlyAggregation MeetAggrStore :=
  (resolveMeets aggrs).map fun meets => ⟨∅, meets, .fromSignature aggrs⟩

variable (s : MeetAggrStore)

def len : ℕ := s.byGroup.size

/-- The meet values of a head tuple, as the folds read them. -/
def incoming (tuple : Tuple) : List MeetAccum :=
  s.layout.valPositions.map fun p => .fromDerived (tuple.getD p .null)

def meetPut (tuple : Tuple) : Except AggrError (Bool × MeetAggrStore) :=
  let key := s.layout.borrowKey tuple
  match s.byGroup[key]? with
  | some vals => do
    let (changed, vals) ← updateAll s.meets vals (s.incoming tuple)
    return (changed, { s with byGroup := s.byGroup.insert key vals })
  | none => do
    let (_, vals) ← updateAll s.meets (s.meets.map MeetAggr.initVal) (s.incoming tuple)
    return (true, { s with byGroup := s.byGroup.insert key vals })

/-- `MeetAggrStore::seed_identity`; `none` is its refusal of a store that holds groups. -/
def seedIdentity : Option MeetAggrStore :=
  if s.byGroup.isEmpty then
    some { s with byGroup := s.byGroup.insert (.encode []) (s.meets.map MeetAggr.initVal) }
  else none

end MeetAggrStore

/-- One epoch's derivations of one rule (`TempStore`). -/
inductive TempStore where
  | normal (s : RegularTempStore)
  | meetAggr (s : MeetAggrStore)

/-! ## Meet levels -/

/-- Groups ascending by key, each with its whole folded accumulator (`MeetLevel`). -/
structure MeetLevel where
  groups : List (OwnBareKey × List MeetAccum)

namespace MeetLevel

def find (l : MeetLevel) (key : OwnBareKey) : Option (OwnBareKey × List MeetAccum) :=
  match binarySearchBy (fun e => compare e.1 key) l.groups with
  | .ok i => l.groups[i]?
  | .error _ => none

end MeetLevel

/-- The newest owner of a group. -/
def findGroup (levels : List MeetLevel) (key : OwnBareKey) : Option (List MeetAccum) :=
  levels.reverse.findSome? fun l => (l.find key).map Prod.snd

/-- The layout and the operations a level stack folds with (`MeetSpec`). -/
structure MeetSpec where
  layout : MeetLayout
  meets : List MeetAggr

def MeetSpec.wouldAdmit (spec : MeetSpec) (levels : LevelStack MeetLevel) (key : OwnBareKey)
    (incoming : List MeetAccum) : Except AggrError Bool :=
  match findGroup levels.iter key with
  | none => .ok true
  | some target => (updateAll spec.meets target incoming).map Prod.fst

/-- `MeetAggrStore::meet_put_admission_faithful`: the store after the fold, and whether the fold
made its group newly admissible. -/
def MeetAggrStore.meetPutAdmissionFaithful (s : MeetAggrStore) (tuple : Tuple) (spec : MeetSpec)
    (levels : LevelStack MeetLevel) : Except AggrError (Bool × MeetAggrStore) := do
  let key := s.layout.borrowKey tuple
  let wasAdmissible ←
    match s.byGroup[key]? with
    | some vals => spec.wouldAdmit levels key vals
    | none => pure false
  let (_, s) ← s.meetPut tuple
  -- The fold leaves the group resident, so the typed refusal for a missing one never speaks.
  let nowAdmissible ← spec.wouldAdmit levels key (s.byGroup[key]?.getD [])
  return (nowAdmissible && !wasAdmissible, s)

/-- The merge loop of `compact_meet`: the newer value of a group survives whole. -/
def compactMeet (levels : LevelStack MeetLevel) : LevelStack MeetLevel :=
  (levels.compactWhile (E := Empty)
    (fun older newer => decide (older.groups.length ≤ newer.groups.length * 2)) fun older newer =>
      .ok ⟨mergeNewest id older.groups newer.groups⟩).2

/-! ## Views of stored rows -/

/-- A view of one stored row (`TupleInIter`). -/
inductive TupleInIter where
  /-- A normal row: its bytes. -/
  | bytes (key : Bytes) (skip : LimiterSkip)
  /-- A suffix-layout meet row: group bytes and folded accumulators. -/
  | meetSuffix (key : Bytes) (val : List MeetAccum) (skip : LimiterSkip)
  /-- An interleaved meet row, rebuilt. -/
  | owned (row : Tuple) (skip : LimiterSkip)

/-- The rows of a scan, if they decode. -/
abbrev Scan := Except TempStoreCorruptRefuse (List TupleInIter)

namespace TupleInIter

/-- The bytes `TupleInIter::cmp_bare` compares: the whole row, encoded. -/
def full : TupleInIter → Bytes
  | .bytes key _ => key
  | .meetSuffix key val _ => key ++ Tuple.bare (val.map MeetAccum.toValue)
  | .owned row _ => row.bare

def cmpBare (t : TupleInIter) (probe : Bytes) : Ordering := compare t.full probe

/-- The closure `within` of `meet_ranged`. -/
def within (lower upper : Bytes) (upperInclusive : Bool) (row : TupleInIter) : Bool :=
  row.cmpBare lower != .lt &&
    match row.cmpBare upper with
    | .lt => true
    | .eq => upperInclusive
    | .gt => false

end TupleInIter

/-! ## Epoch stores -/

/-- The levels of a rule (`LevelKind`). -/
inductive LevelKind where
  | normal (levels : LevelStack NormalLevel)
  | meet (spec : MeetSpec) (levels : LevelStack MeetLevel)

/-- A rule's total and delta as sealed levels (`EpochStore`). -/
structure EpochStore where
  kind : LevelKind
  arity : ℕ

/-- Why `merge_in` refuses. -/
inductive MergeRefuse where
  | arenaOverflow (e : LevelArenaOverflow)
  | aggr (e : AggrError)
  /-- "internal invariant violated: mismatched temp-store kinds in EpochStore::merge_in". -/
  | mismatchedKinds

/-- The newest flags of a row. -/
def findFlags (levels : List NormalLevel) (key : Bytes) : Option RowFlags :=
  levels.reverse.findSome? fun l => (l.find key).map l.rowFlagsAt

/-- The sealing loop of `merge_in` for normal rows: a row no level holds is admitted, a row whose
limiter flag moved is sealed as a refresh, any other is dropped. -/
def sealRows (levels : List NormalLevel) : List (OwnBareKey × LimiterSkip) → NormalLevel → ℕ →
      Except LevelArenaOverflow (NormalLevel × ℕ)
  | [], level, admitted => .ok (level, admitted)
  | (row, skip) :: rest, level, admitted =>
    match findFlags levels row.bytes with
    | none => do
      let level ← level.push row.bytes ⟨skip, .admitted⟩
      sealRows levels rest level (admitted + 1)
    | some old =>
      if old.skip ≠ skip then do
        let level ← level.push row.bytes ⟨skip, .refresh⟩
        sealRows levels rest level admitted
      else sealRows levels rest level admitted

/-- The sealing loop of `merge_in` for groups: a group no level owns is admitted as it comes, one
that the fold moves is admitted folded, any other is dropped. -/
def sealGroups (spec : MeetSpec) (levels : List MeetLevel) :
    List (OwnBareKey × List MeetAccum) → List (OwnBareKey × List MeetAccum) → ℕ →
      Except AggrError (MeetLevel × ℕ)
  | [], groups, admitted => .ok (⟨groups⟩, admitted)
  | (group, incoming) :: rest, groups, admitted =>
    match findGroup levels group with
    | none => sealGroups spec levels rest (groups ++ [(group, incoming)]) (admitted + 1)
    | some target => do
      let (changed, probe) ← updateAll spec.meets target incoming
      if changed then sealGroups spec levels rest (groups ++ [(group, probe)]) (admitted + 1)
      else sealGroups spec levels rest groups admitted

/-- The normal arm of `merge_in`: seal the out-store, drop a consumed empty delta, compact what was
there before, and push the sealed level. -/
def mergeNormal (levels : LevelStack NormalLevel) (new : RegularTempStore) :
    Except LevelArenaOverflow ℕ × LevelStack NormalLevel :=
  match sealRows levels.iter new.inner.toList .empty 0 with
  | .error e => (.error e, levels)
  | .ok (level, admitted) =>
    match compactNormal (levels.dropConsumedEmptyDelta NormalLevel.isEmpty) with
    | (.error e, levels) => (.error e, levels)
    | (.ok _, levels) => (.ok admitted, levels.push level)

/-- The meet arm of `merge_in`. -/
def mergeMeet (spec : MeetSpec) (levels : LevelStack MeetLevel) (new : MeetAggrStore) :
    Except AggrError ℕ × LevelStack MeetLevel :=
  match sealGroups spec levels.iter new.byGroup.toList [] 0 with
  | .error e => (.error e, levels)
  | .ok (level, admitted) =>
    (.ok admitted,
      (compactMeet (levels.dropConsumedEmptyDelta fun l => l.groups.isEmpty)).push level)

/-- A merge over normal cursors (`normal_merge_next`, to the end): the newest row of each key, and
no refreshed row in a delta scan. -/
def normalMerge (cursors : List (List (Bytes × RowFlags))) (deltaOnly : Bool) : List TupleInIter :=
  ((mergeLevels cursors).filter fun e => !(deltaOnly && e.2.refresh.hidesFromDelta)).map fun e =>
    .bytes e.1 e.2.skip

/-- Ascending iterators merged into one (`Itertools::kmerge_by`). -/
def kmergeBy (lt : Tuple → Tuple → Bool) (iters : List (List Tuple)) : List Tuple :=
  iters.foldr (fun iter rest => iter.merge rest fun a b => !lt b a) []

def meetRanged (spec : MeetSpec) (picked all : List MeetLevel) (lower upper : Bytes)
    (upperInclusive : Bool) : Scan :=
  let within := TupleInIter.within lower upper upperInclusive
  if spec.layout.isSuffix then
    let merged := mergeLevels (picked.map MeetLevel.groups)
    .ok ((merged.map fun e => .meetSuffix e.1.bytes e.2 .included).filter within)
  else
    let derive (l : MeetLevel) : Except TempStoreCorruptRefuse (List Tuple) :=
      (l.groups.mapM fun e => spec.layout.interleave e.1 e.2).map fun rows =>
        rows.insertionSort fun a b => (compare a b).isLE = true
    match picked.mapM derive with
    | .error e => .error e
    | .ok derived =>
      -- A row speaks only if no newer level owns its group.
      let iters := derived.zipIdx.map fun (rows, idx) =>
        rows.filter fun row =>
          !(all.drop (idx + 1)).any fun nl => (nl.find (spec.layout.borrowKey row)).isSome
      let merged := kmergeBy (fun a b => compare a b == .lt) iters
      .ok ((merged.map fun row => .owned row .included).filter within)

namespace EpochStore

def newNormal (arity : ℕ) : EpochStore := ⟨.normal (.singleton .empty), arity⟩

def newMeet (aggrs : List HeadAggrSlot) : Except NormalOnlyAggregation EpochStore :=
  (MeetAggrStore.new aggrs).map fun probe =>
    ⟨.meet ⟨probe.layout, probe.meets⟩ (.singleton ⟨[]⟩), aggrs.length⟩

/-- `EpochStore::exists`. -/
def existsKey (s : EpochStore) (key : Tuple) : Bool :=
  match s.kind with
  | .normal levels => levels.iter.reverse.any fun l => (l.find key.bare).isSome
  | .meet spec levels =>
    levels.iter.reverse.any fun l => (l.find (spec.layout.borrowKey key)).isSome

/-- `EpochStore::merge_in`: what it returns, and the store it leaves. -/
def mergeIn (s : EpochStore) (new : TempStore) : Except MergeRefuse ℕ × EpochStore :=
  match s.kind, new with
  | .normal levels, .normal new =>
    let (admitted, levels) := mergeNormal levels new
    (admitted.mapError .arenaOverflow, { s with kind := .normal levels })
  | .meet spec levels, .meetAggr new =>
    let (admitted, levels) := mergeMeet spec levels new
    (admitted.mapError .aggr, { s with kind := .meet spec levels })
  | _, _ => (.error .mismatchedKinds, s)

def hasDelta (s : EpochStore) : Bool :=
  match s.kind with
  | .normal levels =>
    let l := levels.last
    (range l.len).any fun i => !(l.rowFlagsAt i).refresh.hidesFromDelta
  | .meet _ levels => !levels.last.groups.isEmpty

/-- The levels a scan reads: the newest alone, or all. -/
def picked {L : Type} (levels : LevelStack L) (deltaOnly : Bool) : List L :=
  if deltaOnly then [levels.last] else levels.iter

variable (s : EpochStore)

def ranged (lower upper : Bytes) (upperInclusive deltaOnly : Bool) : Scan :=
  match s.kind with
  | .normal levels =>
    let cursors := (picked levels deltaOnly).map fun l =>
      l.slice (l.bounds lower upper upperInclusive)
    .ok (normalMerge cursors deltaOnly)
  | .meet spec levels =>
    meetRanged spec (picked levels deltaOnly) (if deltaOnly then [] else levels.iter) lower upper
      upperInclusive

section

variable (lower upper : List ScanBound) (upperInclusive : Bool)

def rangeIter : Scan :=
  s.ranged (bareBoundsLower lower) (bareBoundsUpper upper) upperInclusive false

def deltaRangeIter : Scan :=
  s.ranged (bareBoundsLower lower) (bareBoundsUpper upper) upperInclusive true

end

def prefixIter (p : Tuple) : Scan :=
  s.ranged p.bare (p.bare ++ [0xFF]) true false

def deltaPrefixIter (p : Tuple) : Scan :=
  s.ranged p.bare (p.bare ++ [0xFF]) true true

def prefixIterProjected (row : Tuple) (cols : List ℕ) (deltaOnly : Bool) : Scan :=
  match s.kind with
  | .normal levels =>
    let cursors := (picked levels deltaOnly).map fun l => l.slice (l.prefixBounds row cols)
    .ok (normalMerge cursors deltaOnly)
  | .meet spec levels =>
    let p := projected row cols
    meetRanged spec (picked levels deltaOnly) (if deltaOnly then [] else levels.iter) p.bare
      (p.bare ++ [0xFF]) true

def allIter : Scan := s.prefixIter []

def deltaAllIter : Scan :=
  s.deltaPrefixIter []

end EpochStore

end Kyzo

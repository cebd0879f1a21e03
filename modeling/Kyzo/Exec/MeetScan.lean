import Kyzo.Exec.MeetStore
import Kyzo.Exec.NormalScan

/-!
# Scans of a meet store

A scan over groups yields one head row for each group, in head order.  A suffix layout walks the
groups, whose key order is the order of their head rows; an interleaved layout rebuilds the rows of
each level, sorts them, drops those a newer level owns and merges what is left.  Both yield the
merged groups sorted by head row.
-/

namespace Kyzo

open List Ordering MeetLevel TupleInIter Kyzo.Tuple Std

/-! ## Groups as rows -/

/-- The row a key encodes. -/
noncomputable def OwnBareKey.tuple (k : OwnBareKey) : Tuple := k.minted.choose

@[simp] lemma OwnBareKey.encode_tuple (k : OwnBareKey) : .encode k.tuple = k :=
  OwnBareKey.ext_bytes k.minted.choose_spec

@[simp] lemma OwnBareKey.tuple_encode (t : Tuple) : (OwnBareKey.encode t).tuple = t :=
  bare_injective (OwnBareKey.encode t).minted.choose_spec

variable {e : OwnBareKey × List MeetAccum}

namespace MeetLayout

variable (l : MeetLayout)

/-- The head row of a group. -/
noncomputable def rowOf (e : OwnBareKey × List MeetAccum) : Tuple := l.headRow e.1.tuple e.2

/-- The view a scan yields for a group. -/
def groupView (key : Tuple) (vals : List MeetAccum) : TupleInIter :=
  if l.isSuffix then .meetSuffix key.bare vals .included
  else .owned (l.headRow key vals) .included

/-- The view a scan yields for a stored group. -/
noncomputable def meetView (e : OwnBareKey × List MeetAccum) : TupleInIter :=
  l.groupView e.1.tuple e.2

/-- The group has the shape of the layout. -/
def Fits (e : OwnBareKey × List MeetAccum) : Prop :=
  e.1.tuple.length = l.keyPositions.length ∧ e.2.length = l.valPositions.length

variable {l}

/-- **A view shows the head row of its group.** -/
theorem full_meetView (he : l.Fits e) : (l.meetView e).full = (l.rowOf e).bare := by
  rw [meetView, groupView]
  split_ifs with hsuffix
  · rw [full, rowOf, headRow_of_suffix hsuffix he.1 he.2, bare_append]
  · rfl

lemma borrowKey_rowOf
    (he : e.1.tuple.length = l.keyPositions.length) : l.borrowKey (l.rowOf e) = e.1 := by
  rw [rowOf, l.borrowKey_headRow he, OwnBareKey.encode_tuple]

end MeetLayout

lemma Tuple.compare_append_of_lt {t u : Tuple} (hlen : t.length = u.length)
    (h : compare t u = .lt) (t' u' : Tuple) :
    compare (show Tuple from t ++ t') (show Tuple from u ++ u') = .lt := by
  induction t generalizing u with
  | nil =>
    rcases u with _ | ⟨w, u⟩
    · cases h
    · cases hlen
  | cons v t ih =>
    rcases u with _ | ⟨w, u⟩
    · cases hlen
    · rw [compare_cons] at h
      change compare (v :: (t ++ t') : Tuple) (w :: (u ++ u') : Tuple) = .lt
      rw [compare_cons]
      rcases hvw : compare v w
      · rfl
      · rw [hvw] at h
        exact ih (by simpa using hlen) h
      · rw [hvw] at h
        cases h

variable {groups : List (OwnBareKey × List MeetAccum)} {l : MeetLayout}

lemma MeetLayout.pairwise_rowOf_of_suffix (hsuffix : l.isSuffix = true)
    (hasc : KeysAscend groups) (hfits : ∀ e ∈ groups, l.Fits e) :
    groups.Pairwise fun a b => compare (l.rowOf a) (l.rowOf b) = .lt := by
  refine Pairwise.imp_of_mem ?_ hasc
  intro a b ha hb hab
  have hkeys : compare a.1.tuple b.1.tuple = .lt := by
    rw [← compare_bare]
    rw [← a.1.encode_tuple, ← b.1.encode_tuple] at hab
    exact hab
  obtain ⟨hka, hva⟩ := hfits a ha
  obtain ⟨hkb, hvb⟩ := hfits b hb
  rw [rowOf, rowOf, headRow_of_suffix hsuffix hka hva, headRow_of_suffix hsuffix hkb hvb]
  exact compare_append_of_lt (hka.trans hkb.symm) hkeys _ _

/-! ## Sorting by head row -/

/-- The order of head rows. -/
def rowLE (a b : Tuple) : Prop := (compare a b).isLE = true

instance : DecidableRel rowLE := fun _ _ => inferInstanceAs (Decidable (_ = _))

instance : IsTrans Tuple rowLE := ⟨fun _ _ _ => TransCmp.isLE_trans⟩

instance : Std.Total rowLE where
  total a b := by
    rw [rowLE, rowLE, isLE_iff_ne_gt, isLE_iff_ne_gt, OrientedCmp.gt_iff_lt]
    cases compare b a <;> simp

instance : Antisymm rowLE where
  antisymm a b hab hba := by
    rw [rowLE, isLE_iff_ne_gt] at hab hba
    rw [OrientedCmp.gt_iff_lt] at hba
    rw [← compare_eq_iff]
    cases h : compare a b
    · exact absurd h hba
    · rfl
    · exact absurd h hab

lemma kmergeBy_spec {iters : List (List Tuple)} (h : ∀ iter ∈ iters, iter.Pairwise rowLE) :
    (kmergeBy (fun a b => compare a b == .lt) iters).Pairwise rowLE ∧
      (kmergeBy (fun a b => compare a b == .lt) iters).Perm iters.flatten := by
  have hle : ∀ a b : Tuple, (!(compare b a == .lt)) = true ↔ rowLE a b := by
    intro a b
    rw [rowLE, isLE_iff_ne_gt, OrientedCmp.gt_iff_lt]
    simp
  induction iters with
  | nil => exact ⟨.nil, .nil⟩
  | cons iter iters ih =>
    obtain ⟨hiter, hiters⟩ := forall_mem_cons.mp h
    obtain ⟨hsorted, hperm⟩ := ih hiters
    constructor
    · have htrans : ∀ a b c : Tuple, (!(compare b a == .lt)) = true →
          (!(compare c b == .lt)) = true → (!(compare c a == .lt)) = true := by
        intro a b c hab hbc
        exact (hle a c).mpr (TransCmp.isLE_trans ((hle a b).mp hab) ((hle b c).mp hbc))
      have htotal : ∀ a b : Tuple, (!(compare b a == .lt) || !(compare a b == .lt)) = true := by
        intro a b
        rw [Bool.or_eq_true, hle, hle]
        exact Total.total a b
      exact (pairwise_merge htrans htotal iter _ (hiter.imp (hle _ _).mpr)
        (hsorted.imp (hle _ _).mpr)).imp (hle _ _).mp
    · exact (merge_perm_append _).trans (hperm.append_left iter)

/-- Groups in the order of their head rows. -/
noncomputable def MeetLayout.sortGroups (l : MeetLayout)
    (groups : List (OwnBareKey × List MeetAccum)) : List (OwnBareKey × List MeetAccum) :=
  groups.insertionSort fun a b => rowLE (l.rowOf a) (l.rowOf b)

namespace MeetLayout

section

variable (l groups)

lemma sortGroups_perm : (l.sortGroups groups).Perm groups :=
  perm_insertionSort _ _

lemma pairwise_map_sortGroups : ((l.sortGroups groups).map l.rowOf).Pairwise rowLE := by
  exact pairwise_map.mpr (pairwise_insertionSort _ _)

end

lemma eq_map_sortGroups {rows : List Tuple}
    (hsorted : rows.Pairwise rowLE) (hperm : rows.Perm (groups.map l.rowOf)) :
    rows = (l.sortGroups groups).map l.rowOf :=
  (hperm.trans ((l.sortGroups_perm groups).map _).symm).eq_of_pairwise
    (fun _ _ _ _ => Antisymm.antisymm _ _) hsorted (l.pairwise_map_sortGroups groups)

section

variable (hasc : KeysAscend groups) (hkeys : ∀ e ∈ groups, e.1.tuple.length = l.keyPositions.length)
include hasc hkeys

lemma eq_of_rowOf_eq {a b : OwnBareKey × List MeetAccum} (ha : a ∈ groups) (hb : b ∈ groups)
    (h : l.rowOf a = l.rowOf b) : a = b := by
  have hkey : a.1 = b.1 := by
    rw [← borrowKey_rowOf (hkeys a ha), h, borrowKey_rowOf (hkeys b hb)]
  have ha' := (lookupKey_eq_some hasc).mpr (show (a.1, a.2) ∈ groups from ha)
  rw [hkey, (lookupKey_eq_some hasc).mpr (show (b.1, b.2) ∈ groups from hb)] at ha'
  exact Prod.ext hkey (Option.some.inj ha').symm

lemma pairwise_sortGroups :
    (l.sortGroups groups).Pairwise fun a b => compare (l.rowOf a) (l.rowOf b) = .lt := by
  have hperm := l.sortGroups_perm groups
  have hnodup : (l.sortGroups groups).Nodup := hperm.nodup_iff.mpr (nodup_of_keysAscend hasc)
  have hle := pairwise_map.mp (l.pairwise_map_sortGroups groups)
  refine Pairwise.imp_of_mem ?_ (hle.and hnodup)
  rintro a b ha hb ⟨hab, hne⟩
  rw [rowLE, isLE_iff_ne_gt] at hab
  rcases hcmp : compare (l.rowOf a) (l.rowOf b)
  · rfl
  · rw [compare_eq_iff] at hcmp
    exact absurd (eq_of_rowOf_eq hasc hkeys (hperm.mem_iff.mp ha) (hperm.mem_iff.mp hb) hcmp) hne
  · exact absurd hcmp hab

lemma sortGroups_filter (p : OwnBareKey × List MeetAccum → Bool) :
    l.sortGroups (groups.filter p) = (l.sortGroups groups).filter p := by
  have hperm : (l.sortGroups (groups.filter p)).Perm ((l.sortGroups groups).filter p) :=
    (l.sortGroups_perm _).trans ((l.sortGroups_perm groups).filter p).symm
  refine hperm.eq_of_pairwise ?_ (pairwise_map.mp (l.pairwise_map_sortGroups _))
    ((pairwise_map.mp (l.pairwise_map_sortGroups groups)).filter p)
  intro a b ha hb hab hba
  have ha' := mem_of_mem_filter ((l.sortGroups_perm _).mem_iff.mp ha)
  have hb' := (l.sortGroups_perm groups).mem_iff.mp (mem_of_mem_filter hb)
  exact eq_of_rowOf_eq hasc hkeys ha' hb' (Antisymm.antisymm _ _ hab hba)

end

lemma sortGroups_of_suffix (hsuffix : l.isSuffix = true) (hasc : KeysAscend groups)
    (hfits : ∀ e ∈ groups, l.Fits e) : l.sortGroups groups = groups := by
  refine Pairwise.insertionSort_eq ((pairwise_rowOf_of_suffix hsuffix hasc hfits).imp ?_)
  intro a b hab
  rw [rowLE, hab]
  rfl

end MeetLayout

/-! ## Ranged scans -/

lemma TupleInIter.within_eq (lower upper : Bytes) (upperInclusive : Bool) (row : TupleInIter) :
    row.within lower upper upperInclusive =
      withinBounds lower upper upperInclusive row.full := by
  rw [within, withinBounds, NormalLevel.belowUpper, cmpBare, cmpBare]
  cases compare row.full lower <;> cases compare row.full upper <;> cases upperInclusive <;> rfl

lemma filter_within_map (hfits : ∀ e ∈ groups, l.Fits e) (lower upper : Bytes)
    (upperInclusive : Bool) :
    (groups.map l.meetView).filter (within lower upper upperInclusive) =
      (groups.filter fun e =>
        withinBounds lower upper upperInclusive (l.rowOf e).bare).map l.meetView := by
  rw [filter_map]
  congr 1
  refine filter_congr ?_
  intro e he
  rw [Function.comp_apply, within_eq, MeetLayout.full_meetView (hfits e he)]

/-- **A scan of a suffix layout.** -/
theorem meetRanged_suffix {spec : MeetSpec} (hsuffix : spec.layout.isSuffix = true)
    {picked : List MeetLevel} (hasc : ∀ l ∈ picked, KeysAscend l.groups)
    (hfits : ∀ e ∈ mergeLevels (picked.map MeetLevel.groups), spec.layout.Fits e)
    (all : List MeetLevel) (lower upper : Bytes) (upperInclusive : Bool) :
    meetRanged spec picked all lower upper upperInclusive =
      .ok (((spec.layout.sortGroups (mergeLevels (picked.map MeetLevel.groups))).filter fun e =>
        withinBounds lower upper upperInclusive (spec.layout.rowOf e).bare).map
          spec.layout.meetView) := by
  have hmerged : KeysAscend (mergeLevels (picked.map groups)) :=
    keysAscend_mergeLevels (forall_mem_map.mpr hasc)
  have hview : spec.layout.meetView =
      fun e : OwnBareKey × List MeetAccum => .meetSuffix e.1.bytes e.2 .included := by
    funext e
    rw [MeetLayout.meetView, MeetLayout.groupView, if_pos hsuffix]
    exact congrArg (meetSuffix · e.2 .included)
      (congrArg OwnBareKey.bytes e.1.encode_tuple)
  rw [meetRanged, if_pos hsuffix, MeetLayout.sortGroups_of_suffix hsuffix hmerged hfits,
    ← filter_within_map hfits, hview]

section Interleaved

variable {spec : MeetSpec} {picked : List MeetLevel}

lemma owned_iff {newer : List MeetLevel} (hasc : ∀ l ∈ newer, KeysAscend l.groups)
    (he : e.1.tuple.length = spec.layout.keyPositions.length) :
    (!newer.any fun nl => (nl.find (spec.layout.borrowKey (spec.layout.rowOf e))).isSome) =
      (newest (newer.map MeetLevel.groups) e.1).isNone := by
  rw [MeetLayout.borrowKey_rowOf he, Bool.eq_iff_iff, Option.isNone_iff_eq_none, newest,
    findSome?_eq_none_iff, Bool.not_eq_true', any_eq_false]
  simp only [mem_reverse, forall_mem_map]
  refine forall₂_congr fun nl hnl => ?_
  rw [isSome_find (hasc nl hnl), Bool.not_eq_true, Option.isSome_eq_false_iff,
    Option.isNone_iff_eq_none]

/-- The head rows of a level that no newer level owns, sorted: one iterator of the merge. -/
noncomputable def ownRows (spec : MeetSpec) (l : MeetLevel) (newer : List MeetLevel) : List Tuple :=
  ((l.groups.map spec.layout.rowOf).insertionSort rowLE).filter fun row =>
    !newer.any fun nl => (nl.find (spec.layout.borrowKey row)).isSome

lemma flatten_ownRows_perm (hasc : ∀ l ∈ picked, KeysAscend l.groups)
    (hkeys : ∀ l ∈ picked, ∀ e ∈ l.groups, e.1.tuple.length = spec.layout.keyPositions.length) :
    (picked.zipIdx.map fun p => ownRows spec p.1 (picked.drop (p.2 + 1))).flatten.Perm
      ((mergeLevels (picked.map MeetLevel.groups)).map spec.layout.rowOf) := by
  have hsurvive := (survivors_perm (forall_mem_map.mpr hasc)).map spec.layout.rowOf
  refine .trans ?_ hsurvive
  rw [survivors_eq_zipIdx, map_flatten, zipIdx_map, map_map, map_map]
  refine Perm.flatMap_left _ ?_
  rintro ⟨l, i⟩ hp
  have hl := fst_mem_of_mem_zipIdx hp
  have hfilter : ∀ e ∈ l.groups,
      (!(picked.drop (i + 1)).any fun nl =>
        (nl.find (spec.layout.borrowKey (spec.layout.rowOf e))).isSome) =
      (newest ((picked.map groups).drop (i + 1)) e.1).isNone := by
    intro e he
    rw [← map_drop]
    exact owned_iff (fun nl hnl => hasc nl (mem_of_mem_drop hnl)) (hkeys l hl e he)
  refine ((perm_insertionSort rowLE _).filter _).trans (.of_eq ?_)
  rw [filter_map]
  exact congrArg _ (filter_congr hfilter)

/-- **A scan of an interleaved layout**, over groups whose keys can be read back. -/
theorem meetRanged_interleaved (hsuffix : spec.layout.isSuffix = false)
    (hasc : ∀ l ∈ picked, KeysAscend l.groups) (hkeys : ∀ l ∈ picked, ∀ e ∈ l.groups,
      e.1.tuple.length = spec.layout.keyPositions.length ∧ e.1.tuple.Shallow)
    (hfits : ∀ e ∈ mergeLevels (picked.map MeetLevel.groups), spec.layout.Fits e)
    {all : List MeetLevel} (hall : ∀ i, all.drop (i + 1) = picked.drop (i + 1))
    (lower upper : Bytes) (upperInclusive : Bool) :
    meetRanged spec picked all lower upper upperInclusive =
      .ok (((spec.layout.sortGroups (mergeLevels (picked.map MeetLevel.groups))).filter fun e =>
        withinBounds lower upper upperInclusive (spec.layout.rowOf e).bare).map
          spec.layout.meetView) := by
  -- Every key decodes, so every level derives its head rows.
  have hderive : ∀ l ∈ picked,
      ((l.groups.mapM fun e => spec.layout.interleave e.1 e.2).map fun rows =>
        rows.insertionSort fun a b => (compare a b).isLE = true) =
      .ok ((l.groups.map spec.layout.rowOf).insertionSort rowLE) := by
    intro l hl
    have hrow : ∀ e ∈ l.groups, spec.layout.interleave e.1 e.2 = .ok (spec.layout.rowOf e) := by
      intro e he
      have := spec.layout.interleave_encode (hkeys l hl e he).2 e.2
      rwa [OwnBareKey.encode_tuple] at this
    rw [mapM_eq_ok hrow]
    rfl
  have hmapM := mapM_eq_ok hderive
  have hview : spec.layout.meetView = fun e => .owned (spec.layout.rowOf e) .included := by
    funext e
    rw [MeetLayout.meetView, MeetLayout.groupView, if_neg (by simp [hsuffix])]
    rfl
  rw [meetRanged, if_neg (by simp [hsuffix])]
  simp only [hmapM, zipIdx_map, map_map, hall]
  have hsorted : ∀ iter ∈ picked.zipIdx.map fun p => ownRows spec p.1 (picked.drop (p.2 + 1)),
      iter.Pairwise rowLE := by
    rintro iter hiter
    obtain ⟨p, -, rfl⟩ := mem_map.mp hiter
    exact (pairwise_insertionSort rowLE _).filter _
  obtain ⟨hmerged, hflat⟩ := kmergeBy_spec hsorted
  have hrows := MeetLayout.eq_map_sortGroups hmerged
    (hflat.trans (flatten_ownRows_perm hasc fun l hl e he => (hkeys l hl e he).1))
  have hfits' : ∀ e ∈ spec.layout.sortGroups (mergeLevels (picked.map groups)),
      spec.layout.Fits e := by
    intro e he
    exact hfits e ((spec.layout.sortGroups_perm _).mem_iff.mp he)
  rw [← filter_within_map hfits', hview]
  refine congrArg (fun rows => Except.ok (filter _ rows)) ?_
  refine (congrArg (map fun row => owned row .included) hrows).trans ?_
  rw [map_map]
  rfl

end Interleaved

end Kyzo

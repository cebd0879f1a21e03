import Kyzo.Store.Versions

/-!
# What the skip walk yields

Over every keyspace and every key range the walk ends, and it yields the rows of the versions that
make their facts hold at the query times, each once and in the order of the keys.
-/

namespace Kyzo

open List SkipWalk Version Ordering Timeline Subtype

/-! ## Steps of the walk -/

namespace SkipWalk

variable {w : SkipWalk}

lemma collect_eq (w : SkipWalk) : w.collect = match w.next with
      | none => .ok []
      | some (.error e, _) => .error e
      | some (.ok tup, w') => w'.collect.map (tup :: ·) := by
  rw [collect]
  split
  · rename_i hnext
    rw [hnext]
  · rename_i hnext
    rw [hnext]
  · rename_i tup w' hnext
    rw [hnext]
    simp only
    rcases w'.collect with e | tups <;> rfl

lemma collect_of_seek_none (hseek : w.seek = none) : w.collect = .ok [] := by
  have hturn : w.turn = none := by
    rw [turn, hseek]
    split_ifs <;> rfl
  rw [collect_eq, next_eq, hturn]

section

variable (hbound : compare w.nextBound w.upper = .lt)
include hbound

lemma turn_of_seek {k v : Bytes} (hseek : w.seek = some (.ok (k, v))) :
    w.turn = some (w.visit k v) := by
  rw [turn, if_neg (not_not.mpr hbound), hseek]

variable {k v bound : Bytes} {polarity : ClaimPolarity}

lemma collect_of_skip (hseek : w.seek = some (.ok (k, v)))
    (hpol : claimPolarityOfValue v = .ok polarity)
    (hkey : checkKeyForBitemporal k polarity w.asOf = .ok (none, bound)) :
    w.collect = (w.advance k bound).collect := by
  have hturn : w.turn = some (none, w.advance k bound) := by
    rw [turn_of_seek hbound hseek, visit, hpol]
    simp only [hkey]
  rw [collect_eq, collect_eq, next_eq, hturn]

lemma collect_of_emit {tup row : List RawValue} (hseek : w.seek = some (.ok (k, v)))
    (hpol : claimPolarityOfValue v = .ok polarity)
    (hkey : checkKeyForBitemporal k polarity w.asOf = .ok (some tup, bound))
    (hrow : extendTupleFromBitemporalV tup v = .ok row) :
    w.collect = (w.advance k bound).collect.map (row :: ·) := by
  have hturn : w.turn = some (some (.ok row), w.advance k bound) := by
    rw [turn_of_seek hbound hseek, visit, hpol]
    simp only [hkey, hrow]
  rw [collect_eq, next_eq, hturn]

end

end SkipWalk

/-! ## Keyspaces -/

/-- A finite bitemporal keyspace: versions with distinct coordinates in the order of their keys, the
facts of each relation with one number of key columns. -/
structure Keyspace where
  versions : List Version
  ascending : versions.Pairwise fun a b => compare a.key b.key = .lt
  arity : ∀ a ∈ versions, ∀ b ∈ versions, a.rel = b.rel → a.fact.length = b.fact.length

namespace Keyspace

variable (K : Keyspace)

/-- The stored map. -/
def toMap : ByteMap where
  entries := K.versions.map fun r => (r.key, r.value)
  ascending := pairwise_map.mpr K.ascending

/-- The versions whose keys lie in a range. -/
def inRange (lower upper : Bytes) : List Version :=
  K.versions.filter fun r => compare lower r.key ≠ .gt ∧ compare r.key upper = .lt

lemma seek_eq (upper bound : Bytes) (asOf : AsOf) : (new K.toMap bound upper asOf).seek =
      (K.inRange bound upper).head?.map fun r => .ok (r.key, r.value) := by
  rw [seek, new, toMap, find?_map, inRange, head?_filter, Option.map_map]
  rfl

lemma inRange_of_lt {lower upper bound : Bytes} {r : Version} {rest : List Version}
    (h : K.inRange lower upper = r :: rest) (hbound : compare r.key bound = .lt) :
    K.inRange bound upper =
      (r :: rest).filter fun d => decide (compare bound d.key ≠ .gt) := by
  have hr : compare lower r.key ≠ .gt := by
    have hmem : r ∈ K.inRange lower upper := h ▸ (.head _)
    simpa using (of_decide_eq_true (mem_filter.mp hmem).2).1
  rw [← h, inRange, inRange, filter_filter]
  refine filter_congr fun d _ => ?_
  rw [Bool.eq_iff_iff, Bool.and_eq_true, decide_eq_true_iff, decide_eq_true_iff, decide_eq_true_iff]
  constructor
  · rintro ⟨hb, hu⟩
    refine ⟨hb, ?_, hu⟩
    have hlt : compare r.key d.key = .lt :=
      Std.TransCmp.lt_of_lt_of_isLE hbound (isLE_iff_ne_gt.mpr hb)
    exact isLE_iff_ne_gt.mp (Std.TransCmp.isLE_trans (isLE_iff_ne_gt.mpr hr)
      (by rw [hlt]; rfl))
  · rintro ⟨hb, -, hu⟩
    exact ⟨hb, hu⟩

/-! ## The first version of a range -/

open Version (slot timeline)

variable {K} {asOf : AsOf} {lower upper : Bytes} {r d : Version} {rest : List Version}

section First

variable (h : K.inRange lower upper = r :: rest)

include h

variable (hd : d ∈ r :: rest)
include hd

lemma mem_of_first : d ∈ K.versions :=
  (mem_filter.mp (h ▸ hd)).1

omit hd in
lemma lt_of_first (hd : d ∈ rest) : compare r.key d.key = .lt := by
  have hsorted : (r :: rest).Pairwise fun a b => compare a.key b.key = .lt := by
    rw [← h]
    exact K.ascending.filter _
  exact (pairwise_cons.mp hsorted).1 d hd

lemma after_first : compare r.key d.key ≠ .gt := by
  rcases mem_cons.mp hd with rfl | hd
  · have hself : compare d.key d.key = .eq := Std.ReflCmp.compare_self
    rw [hself]
    decide
  · rw [lt_of_first h hd]
    decide

lemma dropped_iff (v s : ValiditySlot) : decide (compare (r.splice v s) d.key ≠ .gt) = false ↔
      timeline.fact d = timeline.fact r ∧
        ((slot d.valid).cmp v).then ((slot d.sys).cmp s) = .lt := by
  have harity := K.arity d (mem_of_first h hd) r (mem_of_first h (.head _))
  rw [decide_eq_false_iff_not, not_not, Std.OrientedCmp.gt_iff_lt]
  exact compare_key_splice_eq_lt harity (after_first h hd) v s

lemma latest_of_first (hfact : timeline.fact d = timeline.fact r) :
    timeline.valid d ≤ timeline.valid r ∧
      (timeline.valid d = timeline.valid r → timeline.sys d ≤ timeline.sys r) := by
  have harity := K.arity d (mem_of_first h hd) r (mem_of_first h (.head _))
  have hnot : ¬compare d.key r.key = .lt := mt Std.OrientedCmp.gt_iff_lt.mpr (after_first h hd)
  have hslots := mt (fun hlt => (compare_key_splice_eq_lt harity (after_first h hd)
    (slot r.valid) (slot r.sys)).mpr ⟨hfact, hlt⟩) hnot
  rw [then_cmp_slot_eq_lt, not_or, not_and, not_lt, not_lt] at hslots
  exact ⟨hslots.1, fun hvalid => hslots.2 hvalid.symm⟩

omit hd

lemma coordinates_of_first (hd : d ∈ rest) :
    ¬(timeline.fact d = timeline.fact r ∧ timeline.valid d = timeline.valid r ∧
      timeline.sys d = timeline.sys r) := by
  rintro ⟨hfact, hvalid, hsys⟩
  have hkey := key_eq_of_coordinates hfact hvalid hsys
  have hlt := lt_of_first h hd
  have hself : compare r.key r.key = .eq := Std.ReflCmp.compare_self
  rw [hkey, hself] at hlt
  cases hlt

lemma heads_of_first {asOf : AsOf} (hvalid : ¬asOf.valid < r.valid) (hsys : ¬asOf.sys < r.sys) :
    timeline.Heads asOf.valid.toInt asOf.sys.toInt (r :: rest) r := by
  rw [Int64.lt_iff_toInt_lt, not_lt] at hvalid hsys
  exact ⟨⟨hvalid, hsys⟩, fun d hd hfact heq _ => (latest_of_first h hd hfact).2 heq⟩

end First

/-! ## Runs -/

section Runs

/-- The versions that make their facts hold, among those in a range. -/
def holding (K : Keyspace) (asOf : AsOf) (lower upper : Bytes) : List Version :=
  timeline.holding asOf.valid.toInt asOf.sys.toInt (K.inRange lower upper)

section Step

variable (h : K.inRange lower upper = r :: rest) {v s : ValiditySlot}
  (hforward : ((slot r.valid).cmp v).then ((slot r.sys).cmp s) = .lt)

include h

lemma seek_first (asOf : AsOf) : (new K.toMap lower upper asOf).seek = some (.ok (r.key, r.value)) ∧
      compare lower upper = .lt := by
  have hmem : r ∈ K.inRange lower upper := h ▸ (.head _)
  have hrange : compare lower r.key ≠ .gt ∧ compare r.key upper = .lt :=
    of_decide_eq_true (mem_filter.mp hmem).2
  refine ⟨?_, Std.TransCmp.lt_of_isLE_of_lt (isLE_iff_ne_gt.mpr hrange.1) hrange.2⟩
  rw [seek_eq, h]
  rfl

include hforward

lemma key_lt_splice : compare r.key (r.splice v s) = .lt :=
  (compare_key_splice_eq_lt (fun _ => rfl) (after_first h (.head _)) v s).mpr
    ⟨rfl, hforward⟩

lemma advance_first : (new K.toMap lower upper asOf).advance r.key (r.splice v s) =
      new K.toMap (r.splice v s) upper asOf := by
  have hgt : compare (r.splice v s) r.key = .gt :=
    Std.OrientedCmp.gt_iff_lt.mpr (key_lt_splice h hforward)
  rw [SkipWalk.advance, advancePast, if_pos hgt]
  rfl

lemma inRange_first : K.inRange (r.splice v s) upper =
        (r :: rest).filter (fun d => decide (compare (r.splice v s) d.key ≠ .gt)) ∧
      (K.inRange (r.splice v s) upper).length < (K.inRange lower upper).length := by
  have hrange := K.inRange_of_lt h (key_lt_splice h hforward)
  refine ⟨hrange, ?_⟩
  rw [hrange, h, length_filter_lt_length_iff_exists]
  refine ⟨r, .head _, ?_⟩
  have hdrop := (dropped_iff h (.head _) v s).mpr ⟨rfl, hforward⟩
  rw [hdrop]
  decide

lemma holding_first :
    K.holding asOf (r.splice v s) upper = timeline.holding asOf.valid.toInt asOf.sys.toInt
      ((r :: rest).filter fun d => decide (compare (r.splice v s) d.key ≠ .gt)) :=
  congrArg _ (inRange_first h hforward).1

end Step

/-! ### The bounds of the kernel leave the answer as it is -/

section Bounds

variable (h : K.inRange lower upper = r :: rest)

include h

lemma holding_late (hlate : asOf.valid < r.valid) :
    ((slot r.valid).cmp (slot asOf.valid)).then ((slot r.sys).cmp (slot asOf.sys)) = .lt ∧
    K.holding asOf lower upper =
      K.holding asOf (r.splice (slot asOf.valid) (slot asOf.sys)) upper := by
  have hforward := (then_cmp_slot_eq_lt (c := r.sys) (d := asOf.sys)).mpr
    (.inl (Int64.lt_iff_toInt_lt.mp hlate))
  refine ⟨hforward, ?_⟩
  rw [holding_first h hforward, holding, h]
  refine holding_of_invisible fun d hd hdrop hvis => ?_
  rcases then_cmp_slot_eq_lt.mp ((dropped_iff h hd _ _).mp hdrop).2 with hlt | ⟨-, hlt⟩
  · exact absurd hvis.1 (not_le.mpr hlt)
  · exact absurd hvis.2 (not_le.mpr hlt)

lemma holding_new (hnew : asOf.sys < r.sys) :
    ((slot r.valid).cmp (slot r.valid)).then ((slot r.sys).cmp (slot asOf.sys)) = .lt ∧
    K.holding asOf lower upper =
      K.holding asOf (r.splice (slot r.valid) (slot asOf.sys)) upper := by
  have hforward := (then_cmp_slot_eq_lt (a := r.valid)).mpr
    (.inr ⟨rfl, Int64.lt_iff_toInt_lt.mp hnew⟩)
  refine ⟨hforward, ?_⟩
  rw [holding_first h hforward, holding, h]
  refine holding_of_invisible fun d hd hdrop hvis => ?_
  obtain ⟨hfact, hslots⟩ := (dropped_iff h hd _ _).mp hdrop
  rcases then_cmp_slot_eq_lt.mp hslots with hlt | ⟨-, hlt⟩
  · exact absurd (latest_of_first h hd hfact).1 (not_le.mpr hlt)
  · exact absurd hvis.2 (not_le.mpr hlt)

variable (hd : d ∈ r :: rest)
include hd

lemma eq_of_coordinates (hfact : timeline.fact d = timeline.fact r)
    (hvalid : timeline.valid d = timeline.valid r) (hsys : timeline.sys d = timeline.sys r) :
    d = r := by
  rcases mem_cons.mp hd with heq | hrest
  · exact heq
  · exact absurd ⟨hfact, hvalid, hsys⟩ (coordinates_of_first h hrest)

lemma dropped_instant_iff :
    decide (compare (r.splice (slot r.valid) terminalValidity) d.key ≠ .gt) = false ↔
      timeline.fact d = timeline.fact r ∧ timeline.valid d = timeline.valid r := by
  rw [dropped_iff h hd, cmp_slot_terminal, cmp_slot, then_eq_lt,
    compare_lt_iff_lt, compare_eq_iff_eq]
  refine and_congr_right fun hfact => ⟨?_, fun hvalid => .inr ⟨hvalid.symm, rfl⟩⟩
  rintro (hlt | ⟨heq, -⟩)
  · exact absurd (latest_of_first h hd hfact).1 (not_le.mpr hlt)
  · exact heq.symm

lemma dropped_fact_iff :
    decide (compare (r.splice terminalValidity terminalValidity) d.key ≠ .gt) = false ↔
      timeline.fact d = timeline.fact r := by
  rw [dropped_iff h hd, cmp_slot_terminal]
  exact and_iff_left rfl

omit hd

variable (hvalid : ¬asOf.valid < r.valid) (hsys : ¬asOf.sys < r.sys)

include hvalid hsys

lemma holding_erase (hpol : r.polarity = .erase) :
    ((slot r.valid).cmp (slot r.valid)).then ((slot r.sys).cmp terminalValidity) = .lt ∧
    K.holding asOf lower upper =
      K.holding asOf (r.splice (slot r.valid) terminalValidity) upper := by
  have hforward :
      ((slot r.valid).cmp (slot r.valid)).then ((slot r.sys).cmp terminalValidity) = .lt := by
    rw [cmp_slot_terminal, cmp_slot, compare_eq_iff_eq.mpr rfl]
    rfl
  refine ⟨hforward, ?_⟩
  rw [holding_first h hforward, holding, h]
  exact holding_of_unrecorded mem_cons_self (heads_of_first h hvalid hsys)
    (fun d hd => eq_of_coordinates h hd) (congrArg ClaimPolarity.stance hpol)
    fun d hd => dropped_instant_iff h hd

omit h hvalid hsys in
lemma forward_terminal (r : Version) :
    ((slot r.valid).cmp terminalValidity).then ((slot r.sys).cmp terminalValidity) = .lt := by
  rw [cmp_slot_terminal]
  rfl

lemma holding_retract (hpol : r.polarity = .retract) : K.holding asOf lower upper =
      K.holding asOf (r.splice terminalValidity terminalValidity) upper := by
  rw [holding_first h (forward_terminal r), holding, h]
  have hended : timeline.stance r = .ended := congrArg ClaimPolarity.stance hpol
  exact holding_of_ended mem_cons_self (heads_of_first h hvalid hsys)
    (fun d hd => eq_of_coordinates h hd) (hended ▸ by decide)
    (fun d hd hfact => (latest_of_first h hd hfact).1) hended fun d hd => dropped_fact_iff h hd

lemma holding_assert (hpol : r.polarity = .assert) : K.holding asOf lower upper =
      r :: K.holding asOf (r.splice terminalValidity terminalValidity) upper := by
  rw [holding_first h (forward_terminal r), holding, h]
  exact holding_of_holds (heads_of_first h hvalid hsys)
    (fun d hd => coordinates_of_first h hd) (congrArg ClaimPolarity.stance hpol)
    (fun d hd hfact => (latest_of_first h hd hfact).1) fun d hd => dropped_fact_iff h hd

end Bounds

/-- **Run.**  The walk yields the rows of the versions that make their facts hold. -/
theorem collect_eq_holding (K : Keyspace) (asOf : AsOf) (lower upper : Bytes)
    (hshallow : ∀ r ∈ K.holding asOf lower upper, r.fact.Shallow ∧ r.payload.Shallow) :
    (new K.toMap lower upper asOf).collect =
      .ok ((K.holding asOf lower upper).map fun r => r.row.map val) := by
  -- Each step leaves fewer versions in the range.
  induction hn : (K.inRange lower upper).length using Nat.strong_induction_on
    generalizing lower with
  | _ n ih =>
    subst hn
    rcases hrows : K.inRange lower upper with _ | ⟨r, rest⟩
    · have hseek : (new K.toMap lower upper asOf).seek = none := by
        rw [seek_eq, hrows]
        rfl
      rw [collect_of_seek_none hseek, holding, hrows]
      rfl
    obtain ⟨hseek, hbound⟩ := seek_first hrows asOf
    have hpol := r.claimPolarityOfValue_value
    have hcheck := r.checkKeyForBitemporal_key r.polarity asOf
    -- A step that emits nothing and leaves the answer as it is.
    have hskip : ∀ v s, ((slot r.valid).cmp v).then ((slot r.sys).cmp s) = .lt →
        checkKeyForBitemporal r.key r.polarity asOf = .ok (none, r.splice v s) →
        K.holding asOf lower upper = K.holding asOf (r.splice v s) upper →
        (new K.toMap lower upper asOf).collect =
          .ok ((K.holding asOf lower upper).map fun r => r.row.map val) := by
      intro v s hforward hkey hsame
      rw [collect_of_skip hbound hseek hpol hkey, advance_first hrows hforward, hsame]
      rw [hsame] at hshallow
      exact ih _ (inRange_first hrows hforward).2 _ hshallow rfl
    by_cases hlate : asOf.valid < r.valid
    · rw [if_pos hlate] at hcheck
      obtain ⟨hforward, hsame⟩ := holding_late hrows hlate
      exact hskip _ _ hforward hcheck hsame
    rw [if_neg hlate] at hcheck
    by_cases hnew : asOf.sys < r.sys
    · rw [if_pos hnew] at hcheck
      obtain ⟨hforward, hsame⟩ := holding_new hrows hnew
      exact hskip _ _ hforward hcheck hsame
    rw [if_neg hnew] at hcheck
    rcases hpolarity : r.polarity with _ | _ | _
    · have hsame := holding_assert hrows hlate hnew hpolarity
      have hforward := forward_terminal r
      rw [hsame] at hshallow
      obtain ⟨hfact, hpayload⟩ := hshallow r (.head _)
      rw [hpolarity, r.decodeTupleFromKey_key_eq_ok hfact] at hcheck
      rw [hpolarity] at hpol
      rw [collect_of_emit hbound hseek hpol hcheck
        (r.extendTupleFromBitemporalV_value _ hpayload), advance_first hrows hforward, hsame,
        ih _ (inRange_first hrows hforward).2 _
          (fun d hd => hshallow d (mem_cons_of_mem r hd)) rfl]
      simp [row, Except.map]
    · rw [hpolarity] at hcheck hskip
      exact hskip _ _ (forward_terminal r) hcheck (holding_retract hrows hlate hnew hpolarity)
    · rw [hpolarity] at hcheck hskip
      obtain ⟨hforward, hsame⟩ := holding_erase hrows hlate hnew hpolarity
      exact hskip _ _ hforward hcheck hsame

lemma mem_holding : d ∈ K.holding asOf lower upper ↔ d ∈ K.inRange lower upper ∧
      timeline.Governs asOf.valid.toInt asOf.sys.toInt (K.inRange lower upper) d ∧
      d.polarity = .assert := by
  have hstance : timeline.stance d = .holds ↔ d.polarity = .assert := by
    change d.polarity.stance = .holds ↔ _
    rcases d.polarity with _ | _ | _ <;> simp [ClaimPolarity.stance]
  rw [holding, Timeline.holding, mem_filter, decide_eq_true_iff, hstance]

section

variable (K asOf lower upper)

lemma holding_ascending :
    (K.holding asOf lower upper).Pairwise fun a b => compare a.key b.key = .lt :=
  (K.ascending.filter _).filter _

lemma holding_facts_ne :
    (K.holding asOf lower upper).Pairwise fun a b => timeline.fact a ≠ timeline.fact b := by
  refine (K.holding_ascending asOf lower upper).imp_of_mem fun {a b} ha hb hlt hfact => ?_
  obtain ⟨hamem, hagov, -⟩ := mem_holding.mp ha
  obtain ⟨hbmem, hbgov, -⟩ := mem_holding.mp hb
  have hvalid := valid_eq_of_governs hbmem hamem hfact hbgov hagov
  have hsys := sys_eq_of_heads hbmem hamem hfact hvalid hbgov.1 hagov.1
  have hself : compare b.key b.key = .eq := Std.ReflCmp.compare_self
  rw [key_eq_of_coordinates hfact hvalid hsys, hself] at hlt
  cases hlt

/-- **The skip walk answers a bitemporal scan.**  Over every keyspace, query coordinate and key
range the walk ends.  If the facts and payloads it has to decode nest no deeper than the decoder
reads, it yields the rows of the governing versions that assert their facts, in the order of their
keys and one for each fact. -/
theorem skip_walk_yields (hshallow : ∀ r ∈ K.inRange lower upper,
      timeline.Governs asOf.valid.toInt asOf.sys.toInt (K.inRange lower upper) r →
      r.polarity = .assert → r.fact.Shallow ∧ r.payload.Shallow) :
    ∃ answers : List Version,
      (new K.toMap lower upper asOf).collect =
        .ok (answers.map fun r => r.row.map val) ∧
      (∀ r, r ∈ answers ↔ r ∈ K.inRange lower upper ∧
        timeline.Governs asOf.valid.toInt asOf.sys.toInt (K.inRange lower upper) r ∧
        r.polarity = .assert) ∧
      answers.Pairwise (fun a b => compare a.key b.key = .lt) ∧
      answers.Pairwise (fun a b => timeline.fact a ≠ timeline.fact b) := by
  refine ⟨K.holding asOf lower upper, collect_eq_holding K asOf lower upper fun r hr => ?_,
    fun r => mem_holding, K.holding_ascending asOf lower upper,
    K.holding_facts_ne asOf lower upper⟩
  obtain ⟨hmem, hgov, hassert⟩ := mem_holding.mp hr
  exact hshallow r hmem hgov hassert

end

/-- A fact asserted at an instant and erased at a later one. -/
def erasedLater : Keyspace where
  versions :=
    [⟨⟨1, by decide⟩, [⟨.bool true, .bool true⟩], 20, 1, .erase, []⟩,
      ⟨⟨1, by decide⟩, [⟨.bool true, .bool true⟩], 10, 1, .assert, [⟨.null, .null⟩]⟩]
  ascending := by
    rw [pairwise_pair]
    decide +kernel
  arity := by decide

theorem skip_walk_yields_erasedLater : ∃ answers : List Version,
      (new erasedLater.toMap [] [255] ⟨30, 5⟩).collect =
        .ok (answers.map fun r => r.row.map val) ∧
      (∀ r, r ∈ answers ↔ r ∈ erasedLater.inRange [] [255] ∧
        timeline.Governs 30 5 (erasedLater.inRange [] [255]) r ∧ r.polarity = .assert) ∧
      answers.Pairwise (fun a b => compare a.key b.key = .lt) ∧
      answers.Pairwise (fun a b => timeline.fact a ≠ timeline.fact b) := by
  refine skip_walk_yields erasedLater ⟨30, 5⟩ [] [255] fun r hr _ _ => ?_
  have hmem : r ∈ erasedLater.versions := (mem_filter.mp hr).1
  fin_cases hmem <;> simp [Tuple.Shallow, RawValue.depth]

example : (erasedLater.holding ⟨30, 5⟩ [] [255]).map (·.valid) = [10] := by decide +kernel

/-- A fact that nests one level deeper than the decoder reads. -/
def deepFact : Version :=
  ⟨⟨1, by decide⟩, [⟨nestedList 129, nestedList_lawful 129⟩], 10, 1, .assert, []⟩

def deepKeyspace : Keyspace where
  versions := [deepFact]
  ascending := pairwise_singleton _ _
  arity := by simp

/-- Such a fact stops the walk with an error. -/
theorem skip_walk_deepKeyspace : timeline.Governs 30 5 (deepKeyspace.inRange [] [255]) deepFact ∧
      deepFact.polarity = .assert ∧
      (new deepKeyspace.toMap [] [255] ⟨30, 5⟩).collect = .error (.decode .tooDeep) := by
  have hrows : deepKeyspace.inRange [] [255] = [deepFact] := by
    refine filter_eq_self.mpr fun d hd => ?_
    obtain rfl := mem_singleton.mp hd
    decide +kernel
  have hdeep : ¬∀ v ∈ (deepFact.fact ++ [.validity (slot deepFact.valid),
      .validity (slot deepFact.sys)] : Tuple), v.val.depth ≤ maxDepth := by
    intro h
    have hfact := h ⟨nestedList 129, nestedList_lawful 129⟩
      (mem_append_left _ (mem_singleton.mpr rfl))
    rw [depth_nestedList] at hfact
    exact absurd hfact (by decide)
  have hcheck : checkKeyForBitemporal deepFact.key deepFact.polarity ⟨30, 5⟩ =
      .error (.decode .tooDeep) := by
    rw [checkKeyForBitemporal_key, decodeTupleFromKey_key, Tuple.decodeTupleBare_bare, if_neg hdeep]
    rfl
  have hholds : deepFact ∈ deepKeyspace.holding ⟨30, 5⟩ [] [255] := by
    rw [holding_assert hrows (by decide) (by decide) rfl]
    exact .head _
  obtain ⟨hseek, hbound⟩ := seek_first hrows ⟨30, 5⟩
  refine ⟨(mem_holding.mp hholds).2.1, rfl, ?_⟩
  have hturn : turn (new deepKeyspace.toMap [] [255] ⟨30, 5⟩) =
      some (some (.error (.decode .tooDeep)),
        sought (new deepKeyspace.toMap [] [255] ⟨30, 5⟩)) := by
    rw [turn_of_seek hbound hseek]
    simp [visit, new, hcheck]
  rw [collect_eq, next_eq, hturn]

end Runs

end Keyspace

end Kyzo

import Kyzo.Lib.Bitemporal
import Kyzo.Lib.Spans
import Kyzo.Value.Tuple

/-!
# Validity spans

`@spans` reads all versions of a fact and derives, at one system time, the intervals of valid time
over which the fact holds with one payload.  A fact is resolved at a valid time from its latest
instant down: the newest version of an instant governs it, an assertion holds, a retraction settles
the fact as absent and an erasure falls through.
-/

namespace Kyzo

open List Int64 Kyzo.Interval

instance instLinearOrderInt64 : LinearOrder Int64 where
  le_refl := Int64.le_refl
  le_trans _ _ _ := Int64.le_trans
  le_antisymm _ _ := Int64.le_antisymm
  le_total := Int64.le_total
  lt_iff_le_not_ge a b := by
    rw [Int64.not_le]
    exact ⟨fun h => ⟨Int64.le_of_lt h, h⟩, And.right⟩
  toDecidableLE := inferInstance
  toDecidableLT := inferInstance
  toDecidableEq := inferInstance

/-- An end of an interval as it is written (`Bound`). -/
inductive Bound where
  | unbounded
  | closed (t : Int64)
  | opened (t : Int64)

namespace Interval

/-- `Interval::new`: an open end is the next instant inward, and there is none past the last one. -/
def new (start stop : Bound) : Interval :=
  let lo : Option Lo := match start with
    | .unbounded => some .negUnbounded
    | .closed t => some (.at t)
    | .opened t => if t = maxValue then none else some (.at (t + 1))
  let hi : Option Hi := match stop with
    | .unbounded => some .posUnbounded
    | .closed t => some (.at t)
    | .opened t => if t = minValue then none else some (.at (t - 1))
  match lo, hi with
  | some lo, some hi => range lo hi
  | _, _ => EMPTY

/-- The instants of an interval. -/
def Contains (iv : Interval) (t : Int64) : Prop :=
  ∃ ends ∈ iv.ends, (∀ l, ends.1 = .at l → l ≤ t) ∧ ∀ h, ends.2 = .at h → t ≤ h

end Interval

/-- A stored version of one fact (`RawVersion`). -/
inductive RawVersion where
  | assert (valid sys : Int64) (payload : Tuple)
  | retract (valid sys : Int64)
  | erase (valid sys : Int64)

namespace RawVersion

def valid : RawVersion → Int64
  | assert valid _ _ => valid
  | retract valid _ => valid
  | erase valid _ => valid

def sys : RawVersion → Int64
  | assert _ sys _ => sys
  | retract _ sys => sys
  | erase _ sys => sys

/-- The payload of an assertion. -/
def asserted : RawVersion → Option Tuple
  | assert _ _ payload => some payload
  | _ => none

/-- The versions of one fact on the two time axes. -/
def timeline : Timeline RawVersion Unit Int64 where
  fact _ := ()
  valid := valid
  sys := sys
  stance
    | assert .. => .holds
    | retract .. => .ended
    | erase .. => .unrecorded

end RawVersion

variable (group : List RawVersion) (key : Tuple)

/-- The version that governs an instant: the newest one at or before the system time. -/
def governing (instant atSys : Int64) : Option RawVersion :=
  -- The last of several largest elements, as `max_by_key` chooses.
  (group.filter fun e => e.valid = instant ∧ e.sys ≤ atSys).reverse.argmax RawVersion.sys

/-- The loop of `resolve_at` over instants, latest first. -/
def resolveFrom (atSys : Int64) : List Int64 → Option Tuple
  | [] => none
  | instant :: older =>
    match governing group instant atSys with
    | some (.assert _ _ payload) => some (key ++ payload)
    | some (.retract _ _) => none
    | some (.erase _ _) => resolveFrom atSys older
    | none => resolveFrom atSys older

def resolveAt (atValid atSys : Int64) : Option Tuple :=
  resolveFrom group key atSys
    (sortInstants ((group.map RawVersion.valid).filter (· ≤ atValid))).reverse

/-- The interval of a run: one that no break ends is open above, and so is one that ends at the
terminal tick. -/
def spanInterval (s : TimeRun Int64 Tuple) : Interval :=
  let stop := s.stop.getD maxValue
  let hi : Bound := if stop = maxValue then .unbounded else .closed (stop - 1)
  .new (.closed s.start) hi

def DataValue.interval (iv : Interval) : DataValue := ⟨.interval iv, .interval iv⟩

/-- `derive_group`: a row for each maximal run of one resolved tuple. -/
def deriveGroup (fixedSys : Int64) : List Tuple :=
  (maximalSpans (resolveAt group key · fixedSys) (sortInstants (group.map RawVersion.valid))).map
    fun s => s.value ++ [.interval (spanInterval s)]

variable {group key}

/-! ## What a resolution finds -/

section Resolve

open RawVersion

variable {t sys : Int64}

/-- The version that decides the fact among some of its instants. -/
structure DecidedBy (group : List RawVersion) (t sys : Int64) (instants : List Int64)
    (e : RawVersion) : Prop where
  mem : e ∈ group
  instant : e.valid ∈ instants
  heads : timeline.Heads t sys group e
  claim : timeline.stance e ≠ .unrecorded
  later : ∀ e' ∈ group, e'.valid ∈ instants → timeline.Heads t sys group e' → e.valid < e'.valid →
    timeline.stance e' = .unrecorded

variable {i : Int64} {older : List Int64} {e g : RawVersion}

lemma not_heads_of_governing (h : governing group i sys = none) (he : e ∈ group)
    (hvalid : e.valid = i) : ¬timeline.Heads t sys group e := by
  intro hheads
  have hmem : e ∈ (group.filter fun e => e.valid = i ∧ e.sys ≤ sys).reverse :=
    mem_reverse.mpr (mem_filter.mpr ⟨he, decide_eq_true ⟨hvalid, hheads.1.2⟩⟩)
  rw [argmax_eq_none.mp h] at hmem
  cases hmem

lemma heads_of_governing (h : governing group i sys = some g) (hi : i ≤ t) :
    g ∈ group ∧ g.valid = i ∧ timeline.Heads t sys group g := by
  obtain ⟨hmem, hg⟩ := mem_filter.mp (mem_reverse.mp (argmax_mem h))
  obtain ⟨rfl, hsys⟩ := of_decide_eq_true hg
  refine ⟨hmem, rfl, ⟨hi, hsys⟩, fun r hr _ hvalid hvis => le_of_mem_argmax ?_ h⟩
  exact mem_reverse.mpr (mem_filter.mpr ⟨hr, decide_eq_true ⟨hvalid, hvis.2⟩⟩)

lemma decidedBy_cons_of_silent (hsilent : ∀ e ∈ group, e.valid = i →
      timeline.Heads t sys group e → timeline.stance e = .unrecorded) :
    DecidedBy group t sys (i :: older) e ↔ DecidedBy group t sys older e := by
  constructor
  · intro h
    refine { h with
      instant := (mem_cons.mp h.instant).resolve_left fun heq => ?_
      later := fun e' he' hmem => h.later e' he' (.tail _ hmem) }
    exact h.claim (hsilent e h.mem heq h.heads)
  · intro h
    refine { h with instant := .tail _ h.instant, later := fun e' he' hmem hheads hlt => ?_ }
    rcases mem_cons.mp hmem with heq | hmem
    · exact hsilent e' he' heq hheads
    · exact h.later e' he' hmem hheads hlt

variable (hdistinct : (group.map fun e => (e.valid, e.sys)).Nodup)

include hdistinct

lemma eq_of_heads (hg : g ∈ group) (hgheads : timeline.Heads t sys group g) (he : e ∈ group)
    (hvalid : e.valid = g.valid) (hheads : timeline.Heads t sys group e) : e = g := by
  have hsys : e.sys = g.sys := Timeline.sys_eq_of_heads hg he rfl hvalid hgheads hheads
  exact inj_on_of_nodup_map hdistinct he hg (Prod.ext hvalid hsys)

lemma decidedBy_cons_of_claim (hg : g ∈ group) (hgheads : timeline.Heads t sys group g)
    (hclaim : timeline.stance g ≠ .unrecorded) (hbelow : ∀ o ∈ older, o < g.valid) :
    DecidedBy group t sys (g.valid :: older) e ↔ e = g := by
  constructor
  · intro h
    rcases mem_cons.mp h.instant with heq | hmem
    · exact eq_of_heads hdistinct hg hgheads h.mem heq h.heads
    · exact absurd (h.later g hg (.head _) hgheads (hbelow _ hmem)) hclaim
  · rintro rfl
    refine ⟨hg, .head _, hgheads, hclaim, fun e' _ hmem _ hlt => ?_⟩
    rcases mem_cons.mp hmem with heq | hmem
    · exact absurd hlt heq.le.not_gt
    · exact absurd hlt (hbelow _ hmem).not_gt

lemma resolveFrom_eq_some_iff {instants : List Int64} (hdesc : instants.Pairwise (· > ·))
    (hle : ∀ i ∈ instants, i ≤ t) {tuple : Tuple} :
    resolveFrom group key sys instants = some tuple ↔
      ∃ e, DecidedBy group t sys instants e ∧ ∃ p ∈ e.asserted, key ++ p = tuple := by
  induction instants with
  | nil => exact iff_of_false (fun h => by cases h) fun ⟨e, he, _⟩ => not_mem_nil he.instant
  | cons i older ih =>
    obtain ⟨hbelow, holder⟩ := pairwise_cons.mp hdesc
    obtain ⟨hi, hrest⟩ := forall_mem_cons.mp hle
    replace ih := ih holder hrest
    rw [resolveFrom]
    rcases hgov : governing group i sys with _ | g
    · simp [ih, decidedBy_cons_of_silent fun e he hvalid hheads =>
        absurd hheads (not_heads_of_governing hgov he hvalid)]
    obtain ⟨hmem, rfl, hheads⟩ := heads_of_governing hgov hi
    cases g with
    | assert | retract =>
      simp only [decidedBy_cons_of_claim hdistinct hmem hheads (by simp [timeline]) hbelow]
      simp [asserted]
    | erase v s =>
      simp [ih, decidedBy_cons_of_silent fun e he hvalid hheads' =>
        (eq_of_heads hdistinct hmem hheads he hvalid hheads').symm ▸ rfl]

/-- **A resolution finds the assertion that governs the fact.** -/
theorem resolveAt_eq_some_iff {tuple : Tuple} : resolveAt group key t sys = some tuple ↔
      ∃ e ∈ group, timeline.Governs t sys group e ∧ ∃ p ∈ e.asserted, key ++ p = tuple := by
  have hmem : ∀ {i : Int64}, i ∈ (sortInstants ((group.map valid).filter (· ≤ t))).reverse ↔
      (∃ e ∈ group, e.valid = i) ∧ i ≤ t := by
    simp [mem_sortInstants]
  rw [resolveAt, resolveFrom_eq_some_iff hdistinct
    (pairwise_reverse.mpr (sortInstants_ascending _)) fun i hi => (hmem.mp hi).2]
  refine exists_congr fun e => ⟨fun ⟨h, hp⟩ => ?_, fun ⟨he, hgov, hp⟩ => ?_⟩
  · refine ⟨h.mem, ⟨h.heads, h.claim, fun e' he' _ hheads => ?_⟩, hp⟩
    exact h.later e' he' (hmem.mpr ⟨⟨e', he', rfl⟩, hheads.1.1⟩) hheads
  · exact ⟨⟨he, hmem.mpr ⟨⟨e, he, rfl⟩, hgov.1.1.1⟩, hgov.1, hgov.2.1,
      fun e' he' _ => hgov.2.2 e' he' rfl⟩, hp⟩

end Resolve

/-! ## Spans are exact -/

lemma toInt_sub_one {e : Int64} (h : e ≠ .minValue) : (e - 1).toInt = e.toInt - 1 := by
  have hne : e.toInt ≠ -2 ^ 63 := fun hmin => h (toInt_inj.mp hmin)
  have := e.le_toInt
  have := e.toInt_lt
  rw [toInt_sub, toInt_one]
  exact Int.bmod_eq_of_le (by omega) (by omega)

lemma le_sub_one_iff {a e t : Int64} (h : a < e) : t ≤ e - 1 ↔ t < e := by
  have hmin : e ≠ .minValue := fun hmin => absurd (hmin ▸ h) (not_lt.mpr a.minValue_le)
  rw [le_iff_toInt_le, lt_iff_toInt_lt, toInt_sub_one hmin]
  omega

lemma contains_spanInterval {s : TimeRun Int64 Tuple} {t : Int64}
    (hstop : ∀ e ∈ s.stop, s.start < e ∧ e ≠ maxValue) :
    (spanInterval s).Contains t ↔ s.Covers t := by
  obtain ⟨start, value, _ | e⟩ := s
  · simp [spanInterval, Interval.new, Interval.range, Interval.Inverted, Interval.Contains,
      Interval.ends, TimeRun.Covers]
  · obtain ⟨hlt, hne⟩ := hstop e rfl
    have hproper : ¬Interval.Inverted (.at start) (.at (e - 1)) :=
      not_lt.mpr ((le_sub_one_iff hlt).mpr hlt)
    simp [spanInterval, Interval.new, Interval.range, Interval.Contains, hne, hproper,
      ends, TimeRun.Covers, le_sub_one_iff hlt]

lemma resolveAt_congr {t u sys : Int64} (h : ∀ e ∈ group, e.valid ≤ t ↔ e.valid ≤ u) :
    resolveAt group key t sys = resolveAt group key u sys := by
  rw [resolveAt, resolveAt, filter_congr fun i hi => ?_]
  obtain ⟨e, he, rfl⟩ := mem_map.mp hi
  exact decide_eq_decide.mpr (h e he)

/-- **Validity spans are exact.** -/
theorem deriveGroup_exact (group : List RawVersion) (key : Tuple) (sys : Int64)
    (hdistinct : (group.map fun e => (e.valid, e.sys)).Nodup)
    (hterminal : ∀ e ∈ group, e.valid ≠ maxValue) :
    ∃ spans : List (Tuple × Interval),
      deriveGroup group key sys = spans.map (fun s => key ++ s.1 ++ [.interval s.2]) ∧
      (∀ s ∈ spans, ∃ t, s.2.Contains t) ∧
      (spans.Pairwise fun a b => (∀ t u, a.2.Contains t → b.2.Contains u → t < u) ∧
        (a.1 = b.1 → ∃ gap, (∀ t, a.2.Contains t → t < gap) ∧ ∀ u, b.2.Contains u → gap < u)) ∧
      ∀ t p, (∃ s ∈ spans, s.1 = p ∧ s.2.Contains t) ↔
        ∃ e ∈ group, RawVersion.timeline.Governs t sys group e ∧ e.asserted = some p := by
  set f := fun t => resolveAt group key t sys with hf
  set breaks := sortInstants (group.map RawVersion.valid) with hbreaks
  have hbreak : ∀ {b}, b ∈ breaks ↔ ∃ e ∈ group, e.valid = b := by
    simp [hbreaks, mem_sortInstants]
  have hasc : breaks.Pairwise (· < ·) := sortInstants_ascending _
  have hmem := of_mem_maximalSpans (f := f) hasc
  have hstop : ∀ s ∈ maximalSpans f breaks, ∀ e ∈ s.stop, s.start < e ∧ e ≠ maxValue := by
    intro s hs e he
    obtain ⟨hin, hlt, -⟩ := (hmem s hs).2.2 e he
    obtain ⟨v, hv, rfl⟩ := hbreak.mp hin
    exact ⟨hlt, hterminal v hv⟩
  have hvalue : ∀ s ∈ maximalSpans f breaks, s.value = key ++ s.value.drop key.length := by
    intro s hs
    obtain ⟨-, -, -, p, -, hp⟩ := (resolveAt_eq_some_iff hdistinct).mp (hmem s hs).2.1
    rw [← hp, drop_left]
  refine ⟨(maximalSpans f breaks).map fun s => (s.value.drop key.length, spanInterval s),
    ?_, ?_, ?_, fun t p => ?_⟩
  · rw [map_map]
    exact map_congr_left fun s hs => congrArg (· ++ _) (hvalue s hs)
  · refine forall_mem_map.mpr fun s hs => ⟨s.start, ?_⟩
    exact (contains_spanInterval (hstop s hs)).mpr ⟨le_rfl, fun e he => (hstop s hs e he).1⟩
  · refine pairwise_map.mpr ((maximalSpans_ordered hasc).imp_of_mem ?_)
    rintro a b ha hb ⟨e, he, heb⟩
    simp only [contains_spanInterval (hstop a ha), contains_spanInterval (hstop b hb)]
    refine ⟨fun t u ht hu => (ht.2 e he).trans_le (heb.trans hu.1), fun hsame => ?_⟩
    have hlt : e < b.start := by
      refine lt_of_le_of_ne heb fun heq => ((hmem a ha).2.2 e he).2.2 ?_
      rw [heq, (hmem b hb).2.1, hvalue a ha, hvalue b hb, hsame]
    exact ⟨e, fun t ht => ht.2 e he, fun u hu => hlt.trans_le hu.1⟩
  · have hbefore : ∀ t, (∀ b ∈ breaks, t < b) → f t = none := by
      intro t ht
      have hnone : (group.map RawVersion.valid).filter (· ≤ t) = [] := by
        refine filter_eq_nil_iff.mpr fun b hb => ?_
        simpa using ht b (mem_sortInstants.mpr hb)
      show resolveAt group key t sys = none
      rw [resolveAt, hnone]
      rfl
    have hconst : ∀ b ∈ breaks, ∀ t, b ≤ t → (∀ b' ∈ breaks, b < b' → t < b') → f t = f b := by
      refine fun b _ t hbt hnext => resolveAt_congr fun e he => ⟨fun h => ?_, fun h => h.trans hbt⟩
      exact not_lt.mp fun hlt => absurd h (hnext _ (hbreak.mpr ⟨e, he, rfl⟩) hlt).not_ge
    have hspans : (∃ s ∈ (maximalSpans f breaks).map fun s =>
        (s.value.drop key.length, spanInterval s), s.1 = p ∧ s.2.Contains t) ↔
        ∃ s ∈ maximalSpans f breaks, s.value = key ++ p ∧ s.Covers t := by
      simp only [mem_map, exists_exists_and_eq_and]
      refine exists_congr fun s => and_congr_right fun hs =>
        and_congr ?_ (contains_spanInterval (hstop s hs))
      rw [hvalue s hs, drop_left, append_cancel_left_eq]
    rw [hspans, covers_maximalSpans_iff hasc hbefore hconst, resolveAt_eq_some_iff hdistinct]
    simp

/-- A fact that ends at an ordinary instant. -/
def heldThenEnded (last : Int64) : List RawVersion := [.assert 0 0 [], .retract last 0]

theorem deriveGroup_exact_heldThenEnded : ∃ spans : List (Tuple × Interval),
    deriveGroup (heldThenEnded 5) [] 0 = spans.map (fun s => [] ++ s.1 ++ [.interval s.2]) ∧
    ∀ s ∈ spans, ∃ t, s.2.Contains t := by
  obtain ⟨spans, heq, hne, -⟩ := deriveGroup_exact (heldThenEnded 5) [] 0 (by decide) (by decide)
  exact ⟨spans, heq, hne⟩

/-- The end at the terminal tick is taken for no end. -/
theorem deriveGroup_overruns_terminal :
    ((heldThenEnded .maxValue).map fun e => (e.valid, e.sys)).Nodup ∧
    deriveGroup (heldThenEnded .maxValue) [] 0 = [[.interval (.new (.closed 0) .unbounded)]] ∧
    (new (.closed 0) .unbounded).Contains .maxValue ∧
    ¬∃ e ∈ heldThenEnded .maxValue,
      RawVersion.timeline.Governs .maxValue 0 (heldThenEnded .maxValue) e ∧
        e.asserted = some [] := by
  refine ⟨by decide, ?_, ⟨_, rfl, ?_⟩, by decide⟩
  · have hbreaks : sortInstants ((heldThenEnded .maxValue).map RawVersion.valid) =
        [0, .maxValue] := by
      decide
    have hheld : resolveAt (heldThenEnded .maxValue) [] 0 0 = some [] := by decide
    have hended : resolveAt (heldThenEnded .maxValue) [] .maxValue 0 = none := by decide
    rw [deriveGroup, hbreaks, maximalSpans, hheld]
    simp [hended, maximalSpans, spanInterval]
  · simp

end Kyzo

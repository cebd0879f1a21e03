import Kyzo.Lib.Except
import Kyzo.Lib.Runs
import Kyzo.Store.Identity
import Mathlib.Order.CompletePartialOrder

/-!
# Live footprints

The admission of `session/footprint.rs`.  A fenced footprint enters the table of live footprints
unless it overlaps a live one of another session.  The test compares footprints by their text; what
they stand for is a set of keys, which for a frontier depends on the graph that its edge predicate
walks.
-/

namespace Kyzo

open List

/-! ## Footprints -/

/-- An inclusive range of keys. -/
structure ByteRange where
  start : Bytes
  stop : Bytes

structure EdgePredicate where
  id : Bytes32
  deriving DecidableEq

structure Frontier where
  anchor : Bytes
  edge : EdgePredicate

inductive Footprint
  | exact (ranges : List ByteRange)
  | envelope (ranges : List ByteRange)
  | indexDomain (projection : Bytes32)
  | wholeRelation (relation : Bytes32)
  | frontier (frontier : Frontier)
  | underivable

inductive FootprintRefuse
  | underivableInFenced
  | overlappingFenced

/-- A footprint that may be fenced, with the catalog generation it is sealed at. -/
structure FencedFootprint where
  footprint : Footprint
  catalogGeneration : UInt64
  derivable : footprint ≠ .underivable

inductive AskShape
  | optimistic
  | fenced (footprint : FencedFootprint)

/-! ## Overlap -/

def rangesOverlap (a b : List ByteRange) : Bool :=
  a.any fun ra => b.any fun rb => (compare ra.start rb.stop).isLE && (compare rb.start ra.stop).isLE

def footprintsOverlap : Footprint → Footprint → Bool
  | .exact ra, .exact rb | .envelope ra, .envelope rb | .exact ra, .envelope rb
  | .envelope ra, .exact rb => rangesOverlap ra rb
  | .wholeRelation r1, .wholeRelation r2 => r1 == r2
  | .indexDomain p1, .indexDomain p2 => p1 == p2
  | .frontier f1, .frontier f2 => f1.edge == f2.edge
  | .underivable, _ | _, .underivable => true
  | _, _ => true

def adjudicateFencedOverlap (candidate : FencedFootprint) (live : List AskShape) :
    Except FootprintRefuse Unit :=
  live.forM fun
    | .fenced other =>
      if footprintsOverlap candidate.footprint other.footprint then .error .overlappingFenced
      else .ok ()
    | .optimistic => .ok ()

/-- What identities and edge predicates stand for.  Different identities share no key. -/
structure KeyWorld where
  relation : Bytes32 → Set Bytes
  domain : Bytes32 → Set Bytes
  edges : EdgePredicate → Bytes → Bytes → Prop
  relation_disjoint : ∀ {r r'}, r ≠ r' → Disjoint (relation r) (relation r')
  domain_disjoint : ∀ {p p'}, p ≠ p' → Disjoint (domain p) (domain p')

/-- The keys of a footprint; a frontier has its anchor and all that is reachable from it. -/
def Footprint.keys (w : KeyWorld) : Footprint → Set Bytes
  | .exact ranges | .envelope ranges =>
    { k | ∃ r ∈ ranges, (compare r.start k).isLE ∧ (compare k r.stop).isLE }
  | .indexDomain projection => w.domain projection
  | .wholeRelation relation => w.relation relation
  | .frontier f => { k | Relation.ReflTransGen (w.edges f.edge) f.anchor k }
  | .underivable => Set.univ

/-- The predicate of a fenced frontier. -/
def AskShape.edge : AskShape → Option EdgePredicate
  | .fenced ⟨.frontier f, _, _⟩ => some f.edge
  | _ => none

lemma AskShape.eq_of_edge {shape : AskShape} {p : EdgePredicate} (h : p ∈ shape.edge) :
    ∃ a f, shape = .fenced a ∧ a.footprint = .frontier f ∧ f.edge = p := by
  rcases shape with _ | ⟨_ | _ | _ | _ | f | _, generation, hderivable⟩ <;> cases h
  exact ⟨_, f, rfl, rfl, rfl⟩

/-- Two shapes, when both are fenced, share no key. -/
def AskShape.Apart (w : KeyWorld) : AskShape → AskShape → Prop
  | .fenced a, .fenced b => Disjoint (a.footprint.keys w) (b.footprint.keys w)
  | _, _ => True

lemma disjoint_ranges {ra rb : List ByteRange} (h : rangesOverlap ra rb = false) (w : KeyWorld) :
    Disjoint ((Footprint.exact ra).keys w) ((Footprint.exact rb).keys w) := by
  refine Set.disjoint_left.mpr fun k ⟨a, ha, hak, hka⟩ ⟨b, hb, hbk, hkb⟩ => ?_
  simp only [rangesOverlap, any_eq_false] at h
  exact h a ha (any_eq_true.mpr ⟨b, hb, Bool.and_eq_true_iff.mpr
    ⟨Std.TransOrd.isLE_trans hak hkb, Std.TransOrd.isLE_trans hbk hka⟩⟩)

/-- **The test is sound**, frontiers of two predicates aside. -/
theorem disjoint_keys {a b : Footprint} (h : footprintsOverlap a b = false)
    (hedge : ∀ f g, a = .frontier f → b = .frontier g → f.edge = g.edge) (w : KeyWorld) :
    Disjoint (a.keys w) (b.keys w) := by
  revert h
  rcases a with ra | ra | p | r | f | _ <;> rcases b with rb | rb | p' | r' | g | _ <;> intro h
  all_goals first
    | cases h
    | exact disjoint_ranges h w
    | skip
  · exact w.domain_disjoint (beq_eq_false_iff_ne.mp h)
  · exact w.relation_disjoint (beq_eq_false_iff_ne.mp h)
  · exact absurd (hedge f g rfl rfl) (beq_eq_false_iff_ne.mp h)

/-! ## The live table -/

structure FootprintIndexKey where
  fenceEpoch : FenceEpoch
  incarnationId : IncarnationId
  deriving DecidableEq

/-- The live shapes, a map from the keys of their sessions; nothing depends on its order. -/
structure LiveFootprintTable where
  live : List (FootprintIndexKey × AskShape)
  nodup : (live.map Prod.fst).Nodup

inductive LiveInsert
  | fresh
  | replaced (previous : AskShape)

variable {table : LiveFootprintTable}

namespace LiveFootprintTable

def empty : LiveFootprintTable := ⟨[], .nil⟩

variable (table)

/-- `BTreeMap::retain` by the keys. -/
def retain (p : FootprintIndexKey → Bool) : LiveFootprintTable :=
  ⟨table.live.filter (p ·.1), table.nodup.sublist (filter_sublist.map _)⟩

section

variable (key : FootprintIndexKey)

lemma notMem_retain_ne : key ∉ (table.retain (· ≠ key)).live.map Prod.fst := by
  simp [retain]

/-- `BTreeMap::insert`. -/
def put (shape : AskShape) : LiveFootprintTable :=
  ⟨(key, shape) :: (table.retain (· ≠ key)).live,
    nodup_cons.mpr ⟨table.notMem_retain_ne key, (table.retain (· ≠ key)).nodup⟩⟩

/-- `LiveFootprintTable::insert`, with the table it leaves. -/
def insert (shape : AskShape) : Except FootprintRefuse (LiveFootprintTable × LiveInsert) :=
  let adjudicated :=
    match shape with
    | .fenced fenced =>
      adjudicateFencedOverlap fenced ((table.retain (· ≠ key)).live.map Prod.snd)
    | .optimistic => .ok ()
  adjudicated.map fun () => (table.put key shape,
    match table.live.lookup key with
    | none => .fresh
    | some previous => .replaced previous)

end

def dropIncarnation (incarnation : IncarnationId) : LiveFootprintTable :=
  table.retain (·.incarnationId ≠ incarnation)

def dropEpoch (epoch : FenceEpoch) : LiveFootprintTable :=
  table.retain (·.fenceEpoch ≠ epoch)

end LiveFootprintTable

/-- An admission or a release. -/
inductive FootprintOp
  | insert (key : FootprintIndexKey) (shape : AskShape)
  | dropIncarnation (incarnation : IncarnationId)
  | dropEpoch (epoch : FenceEpoch)

namespace LiveFootprintTable

section

variable (table)

/-- The table that an accepted operation leaves. -/
def step : FootprintOp → Option LiveFootprintTable
  | .insert key shape =>
    match table.insert key shape with
    | .ok (table, _) => some table
    | .error _ => none
  | .dropIncarnation incarnation => some (table.dropIncarnation incarnation)
  | .dropEpoch epoch => some (table.dropEpoch epoch)

/-- Any two live fenced footprints share no key, whatever the graph. -/
def Separate : Prop :=
  ∀ w, table.live.Pairwise fun e e' => e.2.Apart w e'.2

/-- A fenced frontier enters only while no other session walks another predicate. -/
def OnePredicate : FootprintOp → Prop
  | .insert key shape =>
    ∀ e ∈ (table.retain (· ≠ key)).live, ∀ p ∈ shape.edge, ∀ q ∈ e.2.edge, p = q
  | .dropIncarnation _ | .dropEpoch _ => True

end

variable {table' : LiveFootprintTable}

lemma Separate.retain (h : table.Separate) (p : FootprintIndexKey → Bool) :
    (table.retain p).Separate :=
  fun w => (h w).sublist filter_sublist

/-- What an accepted insert leaves, and what it has checked. -/
theorem insert_cases {key : FootprintIndexKey} {shape : AskShape}
    (h : table.step (.insert key shape) = some table') :
    table' = table.put key shape ∧ ∀ e ∈ (table.retain (· ≠ key)).live, ∀ a b,
      shape = .fenced a → e.2 = .fenced b → footprintsOverlap a.footprint b.footprint = false := by
  cases hinsert : table.insert key shape with
  | error e =>
    rw [step, hinsert] at h
    cases h
  | ok result =>
    rw [step, hinsert] at h
    cases h
    obtain ⟨_, hcheck, rfl⟩ := map_eq_ok.mp hinsert
    refine ⟨rfl, ?_⟩
    rintro e he a b rfl hb
    have hfree := forM_eq_ok.mp hcheck e.2 (mem_map_of_mem he)
    rw [hb] at hfree
    by_contra hoverlap
    simp [hoverlap] at hfree

/-- The world in which every predicate links every two keys. -/
def linked : KeyWorld where
  relation _ := ∅
  domain _ := ∅
  edges _ _ _ := True
  relation_disjoint _ := Set.disjoint_empty ∅
  domain_disjoint _ := Set.disjoint_empty ∅

lemma not_apart_linked {a b : AskShape} {p q : EdgePredicate} (ha : p ∈ a.edge) (hb : q ∈ b.edge) :
    ¬ a.Apart linked b := by
  obtain ⟨a, f, rfl, ha, -⟩ := a.eq_of_edge ha
  obtain ⟨b, g, rfl, hb, -⟩ := b.eq_of_edge hb
  rw [AskShape.Apart, ha, hb]
  exact Set.not_disjoint_iff.mpr ⟨f.anchor, .refl, .single trivial⟩

/-- **Step.**  A table stays separate exactly when the step keeps to one predicate. -/
theorem separate_step {op : FootprintOp} (h : table.Separate)
    (hstep : table.step op = some table') : table'.Separate ↔ table.OnePredicate op := by
  rcases op with ⟨key, shape⟩ | incarnation | epoch
  · obtain ⟨rfl, hfree⟩ := insert_cases hstep
    constructor
    · intro hseparate e he p hp q hq
      exact absurd (rel_of_pairwise_cons (hseparate linked) he) (not_apart_linked hp hq)
    · intro hone w
      refine pairwise_cons.mpr ⟨fun e he => ?_, h.retain _ w⟩
      have hone := hone e he
      have hfree := hfree e he
      rcases shape with _ | a
      · trivial
      rcases e with ⟨key', _ | b⟩
      · trivial
      refine disjoint_keys (hfree a b rfl rfl) (fun f g hf hg => ?_) w
      refine hone f.edge ?_ g.edge ?_
      · rcases a with ⟨_, _, _⟩
        cases hf
        rfl
      · rcases b with ⟨_, _, _⟩
        cases hg
        rfl
  · cases hstep
    exact iff_of_true (h.retain _) trivial
  · cases hstep
    exact iff_of_true (h.retain _) trivial

/-- **Live fenced footprints are disjoint** in a run that keeps to one predicate, and the next step
keeps them so exactly when it does too. -/
theorem live_fenced_disjoint {ops : List FootprintOp} {op : FootprintOp}
    (hrun : StepRun step OnePredicate empty ops table) (hstep : table.step op = some table') :
    table.Separate ∧ (table'.Separate ↔ table.OnePredicate op) := by
  have hseparate : table.Separate := hrun.invariant (fun _ => .nil)
    fun h hone hnext => (separate_step h hnext).mpr hone
  exact ⟨hseparate, separate_step hseparate hstep⟩

/-- A session's key, and the shapes of a range of two keys and of a frontier from one anchor. -/
def sessionKey (n : UInt64) : FootprintIndexKey := ⟨⟨1⟩, ⟨⟨n⟩, ⟨.replicate 0x33⟩⟩⟩
def rangeOf (k : UInt8) : AskShape := .fenced ⟨.exact [⟨[k], [k + 1]⟩], 1, nofun⟩
def frontierOf (id : UInt8) : AskShape := .fenced ⟨.frontier ⟨[7], ⟨.replicate id⟩⟩, 1, nofun⟩

/-- Two disjoint ranges are live together, a third of another session beside them. -/
theorem live_fenced_disjoint_ranges :
    ∃ table table', table.live.map Prod.snd = [rangeOf 3, rangeOf 1] ∧
      StepRun step OnePredicate empty
        [.insert (sessionKey 1) (rangeOf 1), .insert (sessionKey 2) (rangeOf 3)] table ∧
      table.step (.insert (sessionKey 3) (rangeOf 5)) = some table' ∧
      table.Separate ∧ table'.Separate := by
  have hone (table : LiveFootprintTable) (key : FootprintIndexKey) (k : UInt8) :
      table.OnePredicate (.insert key (rangeOf k)) := fun _ _ _ hp => nomatch hp
  have hrun : StepRun step OnePredicate empty
      [.insert (sessionKey 1) (rangeOf 1), .insert (sessionKey 2) (rangeOf 3)] _ :=
    (StepRun.nil.snoc (hone _ _ 1) rfl).snoc (hone _ _ 3) rfl
  have hboth := live_fenced_disjoint hrun
    (rfl : step _ (.insert (sessionKey 3) (rangeOf 5)) = some _)
  exact ⟨_, _, rfl, hrun, rfl, hboth.1, hboth.2.mpr (hone _ _ 5)⟩

/-- Two frontiers from one anchor under two predicates are both admitted. -/
theorem frontiers_share_anchor : ∃ table, runSteps step empty
        [.insert (sessionKey 1) (frontierOf 1), .insert (sessionKey 2) (frontierOf 2)] =
          some table ∧
      ¬ table.Separate :=
  ⟨_, rfl, fun h => not_apart_linked rfl rfl (rel_of_pairwise_cons (h linked) (.head _))⟩

end LiveFootprintTable

end Kyzo

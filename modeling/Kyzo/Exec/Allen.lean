import Kyzo.Exec.Spans

/-!
# Relations of intervals

The interval kind computes Allen's relations from its closed ends, widened to 128 bits with the
extremes of that width for unbounded ends.  The relations are those of the sets of points on the
integer line, where an unbounded end goes on beyond every instant.
-/

namespace Kyzo

open Set Int Kyzo.Interval Int64

def i128Min : ℤ := -2 ^ 127
def i128Max : ℤ := 2 ^ 127 - 1

/-- `i128::checked_add`. -/
def i128CheckedAdd (x y : ℤ) : Option ℤ :=
  if i128Min ≤ x + y ∧ x + y ≤ i128Max then some (x + y) else none

namespace Interval

def wideEnds (iv : Interval) : Option (ℤ × ℤ) :=
  iv.ends.map fun (lo, hi) =>
    (match lo with
      | .negUnbounded => i128Min
      | .at t => t.toInt,
    match hi with
      | .posUnbounded => i128Max
      | .at t => t.toInt)

/-- A relation of the widened ends.  The empty interval satisfies none. -/
def related (rel : ℤ → ℤ → ℤ → ℤ → Bool) (a b : Interval) : Bool :=
  match a.wideEnds, b.wideEnds with
  | some (al, ah), some (bl, bh) => rel al ah bl bh
  | _, _ => false

def before := related fun _ ah bl _ => (i128CheckedAdd ah 1).any (· < bl)
def meets := related fun _ ah bl _ => i128CheckedAdd ah 1 = some bl
def overlaps := related fun al ah bl bh => al < bl && bl ≤ ah && ah < bh
def starts := related fun al ah bl bh => al = bl && ah < bh
def during := related fun al ah bl bh => bl < al && ah < bh
def finishes := related fun al ah bl bh => ah = bh && bl < al

/-- The points of an interval on the integer line. -/
def points (iv : Interval) : Set ℤ :=
  {x | ∃ ends ∈ iv.ends, (∀ l, ends.1 = .at l → l.toInt ≤ x) ∧ ∀ h, ends.2 = .at h → x ≤ h.toInt}

end Interval

/-- The relations the kind computes. -/
inductive AllenPrimitive where
  | before | meets | overlaps | starts | during | finishes

/-- Allen's thirteen relations: those six, the same with the arguments swapped, and equality. -/
inductive Allen where
  | forth (p : AllenPrimitive)
  | back (p : AllenPrimitive)
  | equal

/-- The first set has a point before all of the second. -/
def StartsBefore (S T : Set ℤ) : Prop := ∃ x ∈ S, ∀ y ∈ T, x < y

/-- The second set has a point after all of the first. -/
def EndsBefore (S T : Set ℤ) : Prop := ∃ y ∈ T, ∀ x ∈ S, x < y

namespace AllenPrimitive

def holds : AllenPrimitive → Interval → Interval → Bool
  | before => Interval.before
  | meets => Interval.meets
  | overlaps => Interval.overlaps
  | starts => Interval.starts
  | during => Interval.during
  | finishes => Interval.finishes

/-- The relation of two sets of points. -/
def Of : AllenPrimitive → Set ℤ → Set ℤ → Prop
  | before, S, T => ∃ z, (∀ x ∈ S, x < z) ∧ ∀ y ∈ T, z < y
  | meets, S, T => ∃ z, IsGreatest S z ∧ IsLeast T (z + 1)
  | overlaps, S, T => StartsBefore S T ∧ (S ∩ T).Nonempty ∧ EndsBefore S T
  | starts, S, T => (¬StartsBefore S T ∧ ¬StartsBefore T S) ∧ EndsBefore S T
  | during, S, T => StartsBefore T S ∧ EndsBefore S T
  | finishes, S, T => (¬EndsBefore S T ∧ ¬EndsBefore T S) ∧ StartsBefore T S

/-- The relation of two pairs of ends. -/
def OfEnds : AllenPrimitive → ℤ → ℤ → ℤ → ℤ → Prop
  | before, _, ah, bl, _ => ah ≠ i128Max ∧ ah + 1 < bl
  | meets, _, ah, bl, _ => ah ≠ i128Max ∧ ah + 1 = bl
  | overlaps, al, ah, bl, bh => al < bl ∧ bl ≤ ah ∧ ah < bh
  | starts, al, ah, bl, bh => al = bl ∧ ah < bh
  | during, al, ah, bl, bh => bl < al ∧ ah < bh
  | finishes, al, ah, bl, bh => ah = bh ∧ bl < al

end AllenPrimitive

namespace Allen

def holds : Allen → Interval → Interval → Bool
  | forth p, a, b => p.holds a b
  | back p, a, b => p.holds b a
  | equal, a, b => a = b

/-- The relation of two sets of points. -/
def Of : Allen → Set ℤ → Set ℤ → Prop
  | forth p, S, T => p.Of S T
  | back p, S, T => p.Of T S
  | equal, S, T => S = T

def converse : Allen → Allen
  | forth p => back p
  | back p => forth p
  | equal => equal

end Allen

/-- A set of points and its widened ends. -/
structure Widened (S : Set ℤ) (lo hi : ℤ) : Prop where
  low : i128Min ≤ lo ∧ lo < i128Max
  high : i128Min < hi ∧ hi ≤ i128Max
  le : lo ≤ hi
  mem : ∀ x, x ∈ S ↔ (lo = i128Min ∨ lo ≤ x) ∧ (hi = i128Max ∨ x ≤ hi)

namespace Widened

variable {S T : Set ℤ} {al ah bl bh : ℤ} (hS : Widened S al ah) (hT : Widened T bl bh)

include hS

lemma forall_lt {z : ℤ} : (∀ x ∈ S, x < z) ↔ ah ≠ i128Max ∧ ah < z := by
  have hle := hS.le
  constructor
  · intro h
    have hfin : ah ≠ i128Max := fun hmax =>
      absurd (h (max al z) ((hS.mem _).mpr ⟨.inr (le_max_left _ _), .inl hmax⟩)) (by simp)
    exact ⟨hfin, h ah ((hS.mem ah).mpr ⟨.inr hle, .inr le_rfl⟩)⟩
  · rintro ⟨hfin, hlt⟩ x hx
    exact (((hS.mem x).mp hx).2.resolve_left hfin).trans_lt hlt

lemma forall_gt {z : ℤ} : (∀ x ∈ S, z < x) ↔ al ≠ i128Min ∧ z < al := by
  have hle := hS.le
  constructor
  · intro h
    have hfin : al ≠ i128Min := fun hmin =>
      absurd (h (min ah z) ((hS.mem _).mpr ⟨.inl hmin, .inr (min_le_left _ _)⟩)) (by simp)
    exact ⟨hfin, h al ((hS.mem al).mpr ⟨.inr le_rfl, .inr hle⟩)⟩
  · rintro ⟨hfin, hlt⟩ x hx
    exact hlt.trans_le (((hS.mem x).mp hx).1.resolve_left hfin)

include hT

lemma startsBefore_iff : StartsBefore S T ↔ al < bl := by
  have hout := hS.forall_gt (z := bl - 1)
  have hmin := hS.low
  have hmin' := hT.low
  simp only [StartsBefore, hT.forall_gt]
  constructor
  · rintro ⟨x, hx, hfin, hlt⟩
    by_contra hge
    have := hout.mpr ⟨by omega, by omega⟩ x hx
    omega
  · intro hlt
    by_contra hnone
    push Not at hnone
    have := hout.mp fun x hx => sub_one_lt_of_le (hnone x hx (by omega))
    omega

lemma endsBefore_iff : EndsBefore S T ↔ ah < bh := by
  have hout := hT.forall_lt (z := ah + 1)
  have hmax := hS.high
  have hmax' := hT.high
  simp only [EndsBefore, hS.forall_lt]
  constructor
  · rintro ⟨x, hx, hfin, hlt⟩
    by_contra hge
    have := hout.mpr ⟨by omega, by omega⟩ x hx
    omega
  · intro hlt
    by_contra hnone
    push Not at hnone
    have := hout.mp fun x hx => lt_add_one_of_le (hnone x hx (by omega))
    omega

lemma eq_iff : S = T ↔ al = bl ∧ ah = bh := by
  constructor
  · rintro rfl
    have hlow := (hS.startsBefore_iff hT).symm.trans (hS.startsBefore_iff hS)
    have hlow' := (hT.startsBefore_iff hS).symm.trans (hS.startsBefore_iff hS)
    have hhigh := (hS.endsBefore_iff hT).symm.trans (hS.endsBefore_iff hS)
    have hhigh' := (hT.endsBefore_iff hS).symm.trans (hS.endsBefore_iff hS)
    omega
  · rintro ⟨rfl, rfl⟩
    exact ext fun x => (hS.mem x).trans (hT.mem x).symm

lemma primitive_iff (p : AllenPrimitive) : p.Of S T ↔ p.OfEnds al ah bl bh := by
  have hmax := hS.high
  have hmin := hT.low
  cases p with
  | before =>
    simp only [AllenPrimitive.Of, AllenPrimitive.OfEnds, hS.forall_lt, hT.forall_gt]
    constructor
    · omega
    · intro h
      exact ⟨ah + 1, by omega, by omega⟩
  | meets =>
    have hle := hS.le
    have hle' := hT.le
    constructor
    · rintro ⟨z, ⟨hz, hlast⟩, hz', hfirst⟩
      have hlt := hS.forall_lt.mp fun x hx => lt_add_one_of_le (hlast hx)
      have hgt := hT.forall_gt.mp fun y hy => add_one_le_iff.mp (hfirst hy)
      rw [hS.mem] at hz
      rw [hT.mem] at hz'
      exact ⟨hlt.1, by omega⟩
    · rintro ⟨hfin, rfl⟩
      refine ⟨ah, ⟨(hS.mem _).mpr ⟨.inr hle, .inr le_rfl⟩, fun x hx => ?_⟩,
        (hT.mem _).mpr ⟨.inr le_rfl, .inr hle'⟩, fun y hy => ?_⟩
      · exact ((hS.mem x).mp hx).2.resolve_left hfin
      · exact ((hT.mem y).mp hy).1.resolve_left (by omega)
  | overlaps =>
    simp only [AllenPrimitive.Of, AllenPrimitive.OfEnds, hS.startsBefore_iff hT,
      hS.endsBefore_iff hT]
    refine and_congr_right fun hlt => and_congr_left fun hlt' => ?_
    have hle' := hT.le
    constructor
    · rintro ⟨x, hx, hx'⟩
      rw [hS.mem] at hx
      rw [hT.mem] at hx'
      omega
    · exact fun hle => ⟨bl, (hS.mem bl).mpr ⟨.inr hlt.le, .inr hle⟩,
        (hT.mem bl).mpr ⟨.inr le_rfl, .inr hle'⟩⟩
  | during => exact and_congr (hT.startsBefore_iff hS) (hS.endsBefore_iff hT)
  | starts | finishes =>
    simp only [AllenPrimitive.Of, AllenPrimitive.OfEnds, hS.startsBefore_iff hT,
      hT.startsBefore_iff hS, hS.endsBefore_iff hT, hT.endsBefore_iff hS]
    omega

end Widened

namespace Interval

lemma toInt_bounds (t : Int64) : i128Min < t.toInt ∧ t.toInt < i128Max := by
  have := t.le_toInt
  have := t.toInt_lt
  unfold i128Min i128Max
  omega

lemma widened {a : Interval} (h : a.isEmpty = false) :
    ∃ lo hi, a.wideEnds = some (lo, hi) ∧ Widened a.points lo hi := by
  have hsentinels : i128Min < i128Max := by decide
  obtain ⟨form, lawful⟩ := a
  rcases form with _ | ⟨lo, hi⟩
  · cases h
  refine ⟨_, _, rfl, ?_⟩
  rcases lo with _ | l <;> rcases hi with u | _
  · have hu := toInt_bounds u
    constructor <;> simp [points, ends] <;> omega
  · constructor <;> simp [points, ends, hsentinels, hsentinels.le]
  · have hl := toInt_bounds l
    have hu := toInt_bounds u
    have hle := le_iff_toInt_le.mp (not_lt.mp lawful)
    constructor <;> simp [points, ends] <;> omega
  · have hl := toInt_bounds l
    constructor <;> simp [points, ends] <;> omega

variable {a b : Interval}

lemma primitive_holds_iff {al ah bl bh : ℤ} (ha : a.wideEnds = some (al, ah))
    (hb : b.wideEnds = some (bl, bh)) (hmax : i128Min < ah ∧ ah ≤ i128Max) (p : AllenPrimitive) :
    p.holds a b = true ↔ p.OfEnds al ah bl bh := by
  have hsucc : i128CheckedAdd ah 1 = if ah ≠ i128Max then some (ah + 1) else none :=
    if_congr (by omega) rfl rfl
  cases p with
  | before | meets =>
    simp only [AllenPrimitive.holds, before, meets, related, ha, hb, hsucc, AllenPrimitive.OfEnds]
    split_ifs with hfin <;> simp [hfin]
  | _ => simp [AllenPrimitive.holds, overlaps, starts, during, finishes, related, ha, hb,
      AllenPrimitive.OfEnds, and_assoc]

lemma points_injective (ha : a.isEmpty = false) (hb : b.isEmpty = false) :
    a.points = b.points ↔ a = b := by
  refine ⟨fun h => ?_, congrArg points⟩
  obtain ⟨al, ah, hwa, hwida⟩ := widened ha
  obtain ⟨bl, bh, hwb, hwidb⟩ := widened hb
  obtain ⟨rfl, rfl⟩ := (hwida.eq_iff hwidb).mp h
  obtain ⟨forma, la⟩ := a
  obtain ⟨formb, lb⟩ := b
  rcases forma with _ | ⟨lo, hi⟩
  · cases ha
  rcases formb with _ | ⟨lo', hi'⟩
  · cases hb
  obtain ⟨hlo, hhi⟩ := Prod.mk.inj (Option.some.inj (hwa.trans hwb.symm))
  have hlo : lo = lo' := by
    rcases lo with _ | l <;> rcases lo' with _ | l'
    · rfl
    · exact absurd hlo (toInt_bounds l').1.ne
    · exact absurd hlo (toInt_bounds l).1.ne'
    · exact congrArg Lo.at (toInt_inj.mp hlo)
  have hhi : hi = hi' := by
    rcases hi with u | _ <;> rcases hi' with u' | _
    · exact congrArg Hi.at (toInt_inj.mp hhi)
    · exact absurd hhi (toInt_bounds u).2.ne
    · exact absurd hhi (toInt_bounds u').2.ne'
    · rfl
  subst hlo hhi
  rfl

lemma eq_EMPTY (h : a.isEmpty = true) : a = EMPTY := by
  obtain ⟨_ | _, _⟩ := a
  · rfl
  · cases h

lemma isEmpty_eq_false_iff : a.isEmpty = false ↔ ∃ t : Int64, t.toInt ∈ a.points := by
  obtain ⟨form, lawful⟩ := a
  rcases form with _ | ⟨_ | l, u | _⟩ <;> simp only [isEmpty, points, ends] <;> simp
  · exact ⟨u, le_refl _⟩
  · exact ⟨l, le_refl _, le_iff_toInt_le.mp (not_lt.mp lawful)⟩
  · exact ⟨l, le_refl _⟩

/-- The points between two ends as they are written. -/
def spelled (start stop : Bound) : Set ℤ :=
  {x | (match start with
      | .unbounded => True
      | .closed t => t.toInt ≤ x
      | .opened t => t.toInt < x) ∧
    match stop with
      | .unbounded => True
      | .closed t => x ≤ t.toInt
      | .opened t => x < t.toInt}

lemma mem_points_range {lo : Lo} {hi : Hi} {x : ℤ} : x ∈ (range lo hi).points ↔
    (∀ l, lo = .at l → l.toInt ≤ x) ∧ ∀ h, hi = .at h → x ≤ h.toInt := by
  unfold range
  split_ifs with hinv
  · rcases lo with _ | l <;> rcases hi with u | _
    case at.at =>
      have hlt : u.toInt < l.toInt := lt_iff_toInt_lt.mp hinv
      simp [points, EMPTY, ends]
      omega
    all_goals cases hinv
  · simp [points, ends]

lemma mem_points_new {start stop : Bound} {x : ℤ}
    (hx : (-2 ^ 63 ≤ x ∧ x < 2 ^ 63) ∨ (new start stop).isEmpty = false) :
    x ∈ (new start stop).points ↔ x ∈ spelled start stop := by
  have hadd : ∀ t : Int64, t ≠ .maxValue → (t + 1).toInt = t.toInt + 1 := by
    intro t ht
    have hne : t.toInt ≠ 2 ^ 63 - 1 := fun h => ht (toInt_inj.mp h)
    have := t.le_toInt
    have := t.toInt_lt
    rw [toInt_add, toInt_one]
    exact bmod_eq_of_le (by omega) (by omega)
  have hempty : x ∉ EMPTY.points := by simp [points, EMPTY, ends]
  have hsub := fun u => @toInt_sub_one u
  have hmax : maxValue.toInt = 2 ^ 63 - 1 := rfl
  have hnot : EMPTY.isEmpty = true := rfl
  (rcases start with _ | t | t <;> [skip; skip; by_cases ht : t = .maxValue]) <;>
    (rcases stop with _ | u | u <;> [skip; skip; by_cases hu : u = .minValue]) <;>
    simp_all [new, mem_points_range, spelled]
  all_goals omega

end Interval

namespace Allen

/-- The relation of two pairs of ends. -/
def OfEnds : Allen → ℤ → ℤ → ℤ → ℤ → Prop
  | forth p, al, ah, bl, bh => p.OfEnds al ah bl bh
  | back p, al, ah, bl, bh => p.OfEnds bl bh al ah
  | equal, al, ah, bl, bh => al = bl ∧ ah = bh

lemma existsUnique_ofEnds {al ah bl bh : ℤ} (ha : al ≤ ah ∧ al < i128Max ∧ ah ≤ i128Max)
    (hb : bl ≤ bh ∧ bl < i128Max ∧ bh ≤ i128Max) : ∃! r : Allen, r.OfEnds al ah bl bh := by
  refine existsUnique_of_exists_of_unique ?_ fun r r' hr hr' => ?_
  · rcases lt_trichotomy (ah + 1) bl with h | h | h
    · exact ⟨forth .before, by omega, h⟩
    · exact ⟨forth .meets, by omega, h⟩
    rcases lt_trichotomy (bh + 1) al with h' | h' | h'
    · exact ⟨back .before, by omega, h'⟩
    · exact ⟨back .meets, by omega, h'⟩
    rcases lt_trichotomy al bl with hl | rfl | hl <;> rcases lt_trichotomy ah bh with hr | rfl | hr
    · exact ⟨forth .overlaps, hl, by omega, hr⟩
    · exact ⟨back .finishes, rfl, hl⟩
    · exact ⟨back .during, hl, hr⟩
    · exact ⟨forth .starts, rfl, hr⟩
    · exact ⟨equal, rfl, rfl⟩
    · exact ⟨back .starts, rfl, hr⟩
    · exact ⟨forth .during, hl, hr⟩
    · exact ⟨forth .finishes, rfl, hl⟩
    · exact ⟨back .overlaps, hl, by omega, hr⟩
  · rcases r with p | p | _ <;> rcases r' with q | q | _ <;> (try cases p) <;> (try cases q) <;>
      simp only [OfEnds, AllenPrimitive.OfEnds] at hr hr' <;> first | rfl | omega

end Allen

/-- **Allen's relations partition the pairs of non-empty intervals**, each is the relation of the
points and its converse that of the swapped pair; and an interval depends only on the points its
bounds spell. -/
theorem allen_relations_partition : (∀ a b : Interval, a.isEmpty = false → b.isEmpty = false →
      (∃! r : Allen, r.holds a b = true) ∧
      ∀ r : Allen, (r.holds a b = true ↔ r.Of a.points b.points) ∧
        r.converse.holds b a = r.holds a b) ∧
    (∀ start stop start' stop', spelled start stop = spelled start' stop' →
      new start stop = new start' stop') ∧
    ∀ start stop (t : Int64), t.toInt ∈ (new start stop).points ↔
      t.toInt ∈ spelled start stop := by
  refine ⟨fun a b ha hb => ?_, fun start stop start' stop' h => ?_, fun start stop t =>
    mem_points_new (.inl ⟨t.le_toInt, t.toInt_lt⟩)⟩
  · obtain ⟨al, ah, hwa, hS⟩ := widened ha
    obtain ⟨bl, bh, hwb, hT⟩ := widened hb
    have hends : ∀ r : Allen, r.holds a b = true ↔ r.OfEnds al ah bl bh := by
      rintro (p | p | _)
      · exact primitive_holds_iff hwa hwb hS.high p
      · exact primitive_holds_iff hwb hwa hT.high p
      · simp only [Allen.holds, Allen.OfEnds, decide_eq_true_eq]
        rw [← points_injective ha hb, hS.eq_iff hT]
    refine ⟨?_, fun r => ⟨(hends r).trans ?_, by
      cases r <;> simp [Allen.converse, Allen.holds, eq_comm]⟩⟩
    · simp only [hends]
      exact Allen.existsUnique_ofEnds ⟨hS.le, hS.low.2, hS.high.2⟩ ⟨hT.le, hT.low.2, hT.high.2⟩
    · rcases r with p | p | _
      · exact (hS.primitive_iff hT p).symm
      · exact (hT.primitive_iff hS p).symm
      · exact (hS.eq_iff hT).symm
  · have hgrid : ∀ {start stop}, (new start stop).isEmpty = false ↔
        ∃ t : Int64, t.toInt ∈ spelled start stop := fun {start stop} =>
      isEmpty_eq_false_iff.trans (exists_congr fun t =>
        mem_points_new (.inl ⟨t.le_toInt, t.toInt_lt⟩))
    have hsame : (new start stop).isEmpty = (new start' stop').isEmpty := by
      rw [← Bool.not_inj_iff, Bool.eq_iff_iff, Bool.not_eq_true', Bool.not_eq_true', hgrid, hgrid,
        h]
    cases he : (new start stop).isEmpty with
    | false =>
      have he' := hsame ▸ he
      refine (points_injective he he').mp (ext fun x => ?_)
      rw [mem_points_new (.inr he), mem_points_new (.inr he'), h]
    | true => exact (eq_EMPTY he).trans (eq_EMPTY (hsame.symm.trans he)).symm

/-- The instants 1 and 2, spelled in two ways, meet what begins at 3 and bear no other relation to
it. -/
theorem allen_relations_partition_meets :
    (∀ r : Allen, r.holds (new (.closed 1) (.closed 2)) (new (.closed 3) .unbounded) = true →
      r = .forth .meets) ∧ new (.closed 1) (.closed 2) = new (.opened 0) (.opened 3) := by
  obtain ⟨hone, hspelled, -⟩ := allen_relations_partition
  refine ⟨fun r hr => (hone _ _ rfl rfl).1.unique hr rfl, hspelled _ _ _ _ (ext fun x => ?_)⟩
  have hends : toInt 0 = 0 ∧ toInt 1 = 1 ∧ toInt 2 = 2 ∧ toInt 3 = 3 := by decide
  simp only [spelled, mem_ofPred_eq, hends]
  omega

end Kyzo

import Kyzo.Exec.Aggr
import Kyzo.Lib.Levels
import Kyzo.Value.Tuple

/-!
# Sealed levels

A rule's total is a stack of sealed levels.  A normal level keeps its rows as one byte arena with
the end of each row beside it; a meet level keeps groups with their whole folded accumulators.  The
newest level speaks first, and adjacent levels of comparable size are merged.
-/

namespace Kyzo

open List

/-! ## Own row keys -/

/-- Row bytes minted by the bare encoder (`OwnBareKey`); foreign bytes cannot be built. -/
structure OwnBareKey where
  bytes : Bytes
  /-- They encode a row. -/
  minted : ∃ t : Tuple, t.bare = bytes

namespace OwnBareKey

def encode (t : Tuple) : OwnBareKey := ⟨t.bare, t, rfl⟩

instance : Ord OwnBareKey := ⟨fun a b => compare a.bytes b.bytes⟩

lemma ext_bytes {a b : OwnBareKey} (h : a.bytes = b.bytes) : a = b := by
  cases a
  cases h
  rfl

instance : Std.TransOrd OwnBareKey :=
  inferInstanceAs (Std.TransCmp (compareOn OwnBareKey.bytes))

instance : Std.LawfulEqOrd OwnBareKey where
  eq_of_compare h := ext_bytes (Std.LawfulEqOrd.eq_of_compare (α := Bytes) h)
  compare_self {k} := (Std.LawfulEqOrd.compare_eq_iff_eq (a := k.bytes)).mpr rfl

end OwnBareKey

/-! ## Flags and stacks -/

/-- The limiter disposition of a row (`LimiterSkip`). -/
inductive LimiterSkip where
  /-- `Include`: within the limit. -/
  | included
  /-- Derived past the limit; joins only. -/
  | pastLimit
  deriving DecidableEq

/-- Whether a sealed row is an admission of its epoch or only carries a refreshed flag
(`FlagRefresh`). -/
inductive FlagRefresh where
  | admitted
  | refresh

def FlagRefresh.hidesFromDelta : FlagRefresh → Bool
  | .admitted => false
  | .refresh => true

/-- The flags of a sealed row (`RowFlags`). -/
structure RowFlags where
  skip : LimiterSkip
  refresh : FlagRefresh

/-- A stack of levels that is never empty (`LevelStack`), oldest first. -/
structure LevelStack (L : Type) where
  /-- The oldest level. -/
  bottom : L
  /-- The newer ones. -/
  above : List L

namespace LevelStack

variable {L E : Type}

def singleton (first : L) : LevelStack L := ⟨first, []⟩

variable (s : LevelStack L)

def last : L := s.above.getLast?.getD s.bottom

def push (level : L) : LevelStack L := { s with above := s.above ++ [level] }

/-- `LevelStack::iter`: oldest first. -/
def iter : List L := s.bottom :: s.above

def dropConsumedEmptyDelta (isEmpty : L → Bool) (s : LevelStack L) : LevelStack L :=
  match s.above.getLast? with
  | some top => if isEmpty top then { s with above := s.above.dropLast } else s
  | none => s

/-- One turn of `LevelStack::compact_while`: the two newest levels, unless there is only one, and
what the stack is once they are replaced by `merged`. -/
def topPair : Option (L × L × (L → LevelStack L)) :=
  match s.above.reverse with
  | [] => none
  | [newer] => some (s.bottom, newer, fun merged => ⟨merged, []⟩)
  | newer :: older :: below =>
    some (older, newer, fun merged => ⟨s.bottom, (merged :: below).reverse⟩)

/-- The loop of `LevelStack::compact_while`.  A refused merge leaves the stack as it stands. -/
def compactLoop (shouldMerge : L → L → Bool) (merge : L → L → Except E L) :
    ℕ → LevelStack L → Except E Unit × LevelStack L
  | 0, s => (.ok (), s)
  | bound + 1, s =>
    match s.topPair with
    | none => (.ok (), s)
    | some (older, newer, replace) =>
      if shouldMerge older newer then
        match merge older newer with
        | .error e => (.error e, s)
        | .ok merged => compactLoop shouldMerge merge bound (replace merged)
      else (.ok (), s)

/-- `LevelStack::compact_while`: every turn takes one level away. -/
def compactWhile (shouldMerge : L → L → Bool) (merge : L → L → Except E L) (s : LevelStack L) :
    Except E Unit × LevelStack L :=
  compactLoop shouldMerge merge s.above.length s

@[simp] lemma iter_push (level : L) : (s.push level).iter = s.iter ++ [level] :=
  rfl

@[simp] lemma last_push (level : L) : (s.push level).last = level := by
  simp [last, push]

lemma last_mem_iter : s.last ∈ s.iter := by
  rw [last]
  rcases htop : s.above.getLast? with _ | top
  · exact .head _ ..
  · exact .tail _ (mem_of_getLast? htop)

lemma iter_dropConsumedEmptyDelta (isEmpty : L → Bool) (s : LevelStack L) :
    s.iter = (s.dropConsumedEmptyDelta isEmpty).iter ∨
      ∃ top, isEmpty top = true ∧ s.iter = (s.dropConsumedEmptyDelta isEmpty).iter ++ [top] := by
  rw [dropConsumedEmptyDelta]
  rcases htop : s.above.getLast? with _ | top
  · exact .inl rfl
  · by_cases hempty : isEmpty top = true
    · right
      refine ⟨top, hempty, ?_⟩
      simp only [hempty, if_true, iter, cons_append]
      rw [dropLast_append_getLast? top htop]
    · simp [hempty]

variable {s}

lemma holds_dropConsumedEmptyDelta {κ ν μ : Type} [Ord κ] {rows : L → List (κ × ν)} {f : ν → μ}
    {total : κ → Option μ} {isEmpty : L → Bool} (hempty : ∀ l, isEmpty l = true → rows l = [])
    (h : Holds rows f s.iter total) :
    Holds rows f (s.dropConsumedEmptyDelta isEmpty).iter total := by
  rcases s.iter_dropConsumedEmptyDelta isEmpty with heq | ⟨top, htop, heq⟩
  · rwa [← heq]
  · rw [heq] at h
    exact h.of_concat_nil (hempty top htop)

lemma topPair_spec {older newer : L} {replace : L → LevelStack L}
    (h : s.topPair = some (older, newer, replace)) :
    ∃ below, s.iter = below ++ [older, newer] ∧
      ∀ merged, (replace merged).iter = below ++ [merged] := by
  rw [topPair] at h
  split at h
  · cases h
  · next habove =>
    cases h
    refine ⟨[], ?_, fun merged => rfl⟩
    rw [iter, reverse_eq_cons_iff.mp habove]
    rfl
  · next below habove =>
    cases h
    refine ⟨s.bottom :: below.reverse, ?_, fun merged => ?_⟩
    · rw [iter, reverse_eq_cons_iff.mp habove]
      simp
    · simp [iter]

variable {P : List L → Prop} {shouldMerge : L → L → Bool} {merge : L → L → Except E L}

/-- **What every merge of the two newest levels preserves, compaction preserves**, whether it ends
or is refused. -/
theorem compactWhile_invariant
    (hmerge : ∀ below older newer merged, merge older newer = .ok merged →
      P (below ++ [older, newer]) → P (below ++ [merged]))
    (h : P s.iter) : P (s.compactWhile shouldMerge merge).2.iter := by
  rw [compactWhile]
  generalize s.above.length = bound
  induction bound generalizing s with
  | zero => exact h
  | succ bound ih =>
    rw [compactLoop]
    rcases hpair : s.topPair with _ | ⟨older, newer, replace⟩
    · exact h
    · obtain ⟨below, hiter, hreplace⟩ := topPair_spec hpair
      dsimp only
      split_ifs with hshould
      · rcases hm : merge older newer with e | merged
        · exact h
        · refine ih ?_
          rw [hreplace]
          exact hmerge below older newer merged hm (hiter ▸ h)
      · exact h

lemma compactWhile_ok (hmerge : ∀ below older newer, P (below ++ [older, newer]) →
      ∃ merged, merge older newer = .ok merged ∧ P (below ++ [merged]))
    (h : P s.iter) : (s.compactWhile shouldMerge merge).1 = .ok () := by
  rw [compactWhile]
  generalize s.above.length = bound
  induction bound generalizing s with
  | zero => rfl
  | succ bound ih =>
    rw [compactLoop]
    rcases hpair : s.topPair with _ | ⟨older, newer, replace⟩
    · rfl
    · obtain ⟨below, hiter, hreplace⟩ := topPair_spec hpair
      dsimp only
      split_ifs with hshould
      · obtain ⟨merged, hm, hP⟩ := hmerge below older newer (hiter ▸ h)
        rw [hm]
        refine ih ?_
        rw [hreplace]
        exact hP
      · rfl

end LevelStack

/-! ## Normal levels -/

/-- "level arena overflow: flattened byte length .. exceeds u32::MAX" (`LevelArenaOverflow`). -/
structure LevelArenaOverflow where
  len : ℕ

/-- `u32::MAX`: the last row end a level can record. -/
def arenaMax : ℕ := 2 ^ 32 - 1

/-- Rows flattened into one arena (`NormalLevel`): `offsets` holds the end of each row. -/
structure NormalLevel where
  values : Bytes
  offsets : List ℕ
  flags : List RowFlags
  flags_length : flags.length = offsets.length
  /-- Every row ends inside the arena. -/
  offsets_le : ∀ o ∈ offsets, o ≤ values.length
  /-- The last row ends where the arena does. -/
  offsets_last : offsets.getLastD 0 = values.length

/-- The columns of a row that a probe reads. -/
def projected (row : Tuple) (cols : List ℕ) : Tuple := cols.map fun c => row.getD c .null

namespace NormalLevel

/-- `NormalLevel::default`. -/
def empty : NormalLevel := ⟨[], [], [], rfl, by simp, rfl⟩

section

variable (l : NormalLevel)

def len : ℕ := l.offsets.length

def isEmpty : Bool := l.offsets.isEmpty

def rowAt (i : ℕ) : Bytes :=
  let start := if i = 0 then 0 else l.offsets.getD (i - 1) 0
  let stop := l.offsets.getD i 0
  (l.values.take stop).drop start

def rowFlagsAt (i : ℕ) : RowFlags := l.flags.getD i ⟨.included, .admitted⟩

/-- `NormalLevel::push` and `NormalLevel::push_from`: append a row, unless its end leaves `u32`. -/
def push (row : Bytes) (flags : RowFlags) : Except LevelArenaOverflow NormalLevel :=
  if (l.values ++ row).length ≤ arenaMax then
    .ok
      { values := l.values ++ row
        offsets := l.offsets ++ [(l.values ++ row).length]
        flags := l.flags ++ [flags]
        flags_length := by simp [l.flags_length]
        offsets_le := by
          intro o ho
          rcases mem_append.mp ho with ho | ho
          · exact (l.offsets_le o ho).trans (by simp)
          · exact (mem_singleton.mp ho).le
        offsets_last := by simp }
  else .error ⟨(l.values ++ row).length⟩

def find (key : Bytes) : Option ℕ :=
  (bisect (fun i => compare (l.rowAt i) key) l.len).toOption

end

/-- How a stored row lies to a projected probe of `cols` columns: a row with fewer readable columns
lies below. -/
def cmpProbe (cols : ℕ) (probe stored : Bytes) : Ordering :=
  match barePrefixLen stored cols with
  | some boundary => compare (stored.take boundary) probe
  | none => .lt

variable (l : NormalLevel)

/-- The window of rows past everything `before` holds of and up to where `upTo` stops holding: the
two loops of the bound searches. -/
def window (before upTo : Bytes → Bool) : ℕ × ℕ :=
  let start := lowerBoundFrom (fun i => before (l.rowAt i)) 0 l.len
  let stop := lowerBoundFrom (fun i => upTo (l.rowAt i)) start l.len
  (start, max stop start)

def prefixBounds (row : Tuple) (cols : List ℕ) : ℕ × ℕ :=
  let probe := (projected row cols).bare
  l.window (fun stored => cmpProbe cols.length probe stored == .lt)
    (fun stored => cmpProbe cols.length probe stored != .gt)

/-- A key lies at or before an upper bound. -/
def belowUpper (upper : Bytes) (upperInclusive : Bool) (key : Bytes) : Bool :=
  if upperInclusive then (compare key upper).isLE else compare key upper == .lt

def bounds (lower upper : Bytes) (upperInclusive : Bool) : ℕ × ℕ :=
  l.window (fun stored => compare stored lower == .lt) (belowUpper upper upperInclusive)

/-- The rows under an index cursor. -/
def slice (cursor : ℕ × ℕ) : List (Bytes × RowFlags) :=
  (List.range' cursor.1 (cursor.2 - cursor.1)).map fun i => (l.rowAt i, l.rowFlagsAt i)

/-- The merge loop of `compact_normal`: the newer row of a key survives, as a plain row again. -/
def compactRows (older newer : NormalLevel) :
    ℕ → ℕ → ℕ → NormalLevel → Except LevelArenaOverflow NormalLevel
  | 0, _, _, merged => .ok merged
  | bound + 1, a, b, merged =>
    if a < older.len ∨ b < newer.len then
      if older.len ≤ a then do
        let merged ← merged.push (newer.rowAt b) (newer.rowFlagsAt b)
        compactRows older newer bound a (b + 1) merged
      else if newer.len ≤ b then do
        let merged ← merged.push (older.rowAt a) (older.rowFlagsAt a)
        compactRows older newer bound (a + 1) b merged
      else
        match compare (older.rowAt a) (newer.rowAt b) with
        | .lt => do
          let merged ← merged.push (older.rowAt a) (older.rowFlagsAt a)
          compactRows older newer bound (a + 1) b merged
        | .gt => do
          let merged ← merged.push (newer.rowAt b) (newer.rowFlagsAt b)
          compactRows older newer bound a (b + 1) merged
        | .eq => do
          let merged ← merged.push (newer.rowAt b)
            { skip := (newer.rowFlagsAt b).skip, refresh := .admitted }
          compactRows older newer bound (a + 1) (b + 1) merged
    else .ok merged

end NormalLevel

def compactNormal (levels : LevelStack NormalLevel) :
    Except LevelArenaOverflow Unit × LevelStack NormalLevel :=
  levels.compactWhile (fun older newer => decide (older.len ≤ newer.len * 2)) fun older newer =>
    NormalLevel.compactRows older newer (older.len + newer.len) 0 0 .empty

end Kyzo

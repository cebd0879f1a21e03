import Kyzo.Lib.ByteOrder
import Kyzo.Lib.RankSelect

/-!
# The order-preserving interning arena

The dictionary that deduplicates canonical byte strings and hands out dense codes.  Payload bytes
live in an append-only heap of chunks; interned values are entries (a four-byte prefix beside a heap
span) held in immutable sorted runs and in a delta of values that arrived since the last seal.
Sealed codes are ranks over the union of the runs; tail codes are arrival positions.  A seal drains
the delta into the runs, advances the epoch and mints the remap that carries old codes over.

The definitions follow the source function by function.  A mutating operation returns its result
together with the arena it leaves behind, also when it refuses.  Slicing a chunk out of range and
indexing a vector out of range, which panic in the source, are truncated here; the invariant of
`ArenaRefinement` rules them out.  Runs and frozen chunks are shared through `Arc` and never
mutated, so a snapshot holds them as values.  The tie-dereference counter is left out.
-/

namespace Kyzo

/-- `u32::MAX`. -/
def u32Max : ℕ := 2 ^ 32 - 1

/-- The cast `as u32`. -/
def asU32 (n : ℕ) : ℕ := n % 2 ^ 32

/-- Why a door refused (`Denial`), as far as the arena and its containers answer it. -/
inductive Denial where
  | arenaMismatch (left right : ℕ)
  | epochMismatch (left right : ℕ)
  | visibilityOverflow (required visible : ℕ)
  | arityMismatch (expected got : ℕ)
  | extentOverflow
  | codeRemapOverflow
  | bookkeepingBroken
  deriving DecidableEq, Repr

/-! ## Prefix comparison -/

def prefixLen : ℕ := 4

/-- `prefix4`: the first four payload bytes, zero-padded. -/
def prefix4 (bytes : Bytes) : Bytes :=
  bytes.take prefixLen ++ List.replicate (prefixLen - min bytes.length prefixLen) 0x00

inductive PrefixCmp where
  | decided (o : Ordering)
  | needPayload

def cmpPrefixed (pa : Bytes) (la : ℕ) (pb : Bytes) (lb : ℕ) : PrefixCmp :=
  match compare pa pb with
  | .eq => if la ≤ prefixLen ∨ lb ≤ prefixLen then .decided (compare la lb) else .needPayload
  | o => .decided o

/-! ## The payload heap -/

def chunkSize : ℕ := 64 * 1024

/-- A byte string's location in the heap (`Span`). -/
structure Span where
  chunk : ℕ
  /-- Offset in the chunk. -/
  off : ℕ
  len : ℕ
  deriving Inhabited

/-- Append-only payload storage (`Heap`): frozen chunks and the chunk being filled. -/
structure Heap where
  /-- Chunks that are never written again. -/
  frozen : List Bytes
  /-- The chunk being filled; its id is the number of frozen chunks. -/
  live : Bytes

/-- Read access to payload bytes (`Store`). -/
abbrev Store := Span → Bytes

namespace Heap

def new : Heap := ⟨[], []⟩

def freezeLive (h : Heap) : Heap :=
  if h.live = [] then h else ⟨h.frozen ++ [h.live], []⟩

def chunkId (h : Heap) : Except Denial ℕ :=
  if h.frozen.length ≤ u32Max then .ok h.frozen.length else .error .extentOverflow

def push (h : Heap) (value : Bytes) : Except Denial Span × Heap :=
  if u32Max < value.length then (.error .extentOverflow, h)
  else if chunkSize ≤ value.length then
    -- An oversize value gets a chunk of its own.
    let h := h.freezeLive
    match h.chunkId with
    | .error e => (.error e, h)
    | .ok chunk => (.ok ⟨chunk, 0, value.length⟩, ⟨h.frozen ++ [value], h.live⟩)
  else
    let h := if chunkSize < h.live.length + value.length then h.freezeLive else h
    match h.chunkId with
    | .error e => (.error e, h)
    | .ok chunk =>
      if u32Max < h.live.length ∨ u32Max < h.live.length + value.length then
        (.error .extentOverflow, h)
      else (.ok ⟨chunk, h.live.length, value.length⟩, ⟨h.frozen, h.live ++ value⟩)

/-- `Store::payload` of the live heap. -/
def payload (h : Heap) : Store := fun span =>
  if span.len = 0 then []
  else if span.chunk < h.frozen.length then
    ((h.frozen.getD span.chunk []).drop span.off).take span.len
  else (h.live.drop span.off).take span.len

end Heap

/-- `Store::payload` of a snapshot's frozen chunks (`FrozenStore`). -/
def frozenPayload (chunks : List Bytes) : Store := fun span =>
  if span.len = 0 then [] else ((chunks.getD span.chunk []).drop span.off).take span.len

/-! ## Entries and runs -/

/-- A dictionary entry (`Entry`): the prefix inline beside the payload handle. -/
structure Entry where
  /-- `prefix4` of the payload. -/
  pre : Bytes
  /-- Where the payload is. -/
  span : Span
  deriving Inhabited

namespace Entry

def new (span : Span) (h : Heap) : Entry := ⟨prefix4 (h.payload span), span⟩

def cmpNeedle (e : Entry) (np needle : Bytes) (store : Store) : Ordering :=
  match cmpPrefixed e.pre e.span.len np (asU32 needle.length) with
  | .decided o => o
  | .needPayload => compare (store e.span) needle

def cmpEntry (e other : Entry) (store : Store) : Ordering :=
  match cmpPrefixed e.pre e.span.len other.pre other.span.len with
  | .decided o => o
  | .needPayload => compare (store e.span) (store other.span)

end Entry

/-- An immutable sorted run of entries (`Run`). -/
structure Run where
  entries : List Entry

namespace Run

def merge (a b : Run) (h : Heap) : Except Denial Run :=
  if u32Max < a.entries.length + b.entries.length then .error .extentOverflow
  else .ok ⟨mergeDedup (fun x y => x.cmpEntry y h.payload) a.entries b.entries⟩

def len (r : Run) : ℕ := r.entries.length

/-- `Run::search`: the rank of the needle in the run, present or absent. -/
def search (r : Run) (np needle : Bytes) (store : Store) : Except ℕ ℕ :=
  binarySearchBy (fun e => e.cmpNeedle np needle store) r.entries

end Run

/-- One round of a lookup loop: the accumulated rank, and whether the needle was found. -/
def addSearch (acc : ℕ × Bool) : Except ℕ ℕ → ℕ × Bool
  | .ok pos => (acc.1 + pos, true)
  | .error pos => (acc.1 + pos, acc.2)

/-- The lookup loop over the disjoint runs: the accumulated rank, and whether some run held the
needle. -/
def searchRuns (runs : List Run) (np needle : Bytes) (store : Store) : ℕ × Bool :=
  runs.foldl (fun acc run => addSearch acc (run.search np needle store)) (0, false)

/-- The values interned since the last seal (`Delta`). -/
structure Delta where
  /-- In arrival order. -/
  arrivals : List Entry
  /-- Arrival indices, sorted by payload bytes. -/
  sorted : List ℕ

namespace Delta

def new : Delta := ⟨[], []⟩

def search (d : Delta) (np needle : Bytes) (store : Store) : Except ℕ ℕ :=
  binarySearchBy (fun i => (d.arrivals.getD i default).cmpNeedle np needle store) d.sorted

def entryByRank (d : Delta) (rank : ℕ) : Entry := d.arrivals.getD (d.sorted.getD rank 0) default

end Delta

/-! ## Stamps and admission -/

/-- A code with the epoch and arena that give it meaning (`StampedCode`). -/
structure StampedCode where
  /-- The raw handle. -/
  code : ℕ
  epoch : ℕ
  arena : ℕ
  deriving DecidableEq, Repr

/-- `Admission::prove_shared`, as the refusal it may answer. -/
def proveShared (leftArena leftEpoch rightArena rightEpoch : ℕ) : Except Denial Unit :=
  if leftArena ≠ rightArena then .error (.arenaMismatch leftArena rightArena)
  else if leftEpoch ≠ rightEpoch then .error (.epochMismatch leftEpoch rightEpoch)
  else .ok ()

/-! ## The shared read core -/

/-- What every observer reads through (`View`). -/
structure View where
  runs : List Run
  /-- The number of sealed values. -/
  sealedLen : ℕ
  /-- The delta in arrival order. -/
  arrivals : List Entry
  /-- Arrival indices in payload order. -/
  sorted : List ℕ
  /-- Payload access. -/
  store : Store

namespace View

variable (v : View)

def len : ℕ := v.sealedLen + v.arrivals.length

def lowerBoundIn (run : Run) (e : Entry) : ℕ :=
  partitionPoint (fun x => x.cmpEntry e v.store = .lt) run.entries

def lowerBoundDelta (e : Entry) : ℕ :=
  partitionPoint (fun i => (v.arrivals.getD i default).cmpEntry e v.store = .lt) v.sorted

/-- The rank of the entry at position `mid` of run `r`: its position, plus the lower bounds in the
other runs, plus the lower bound in the delta when it is included. -/
def globalRankInRun (run : Run) (r : ℕ) (withDelta : Bool) (mid : ℕ) : ℕ :=
  let e := run.entries.getD mid default
  let others := (v.runs.zipIdx.map fun (other, i) =>
    if i = r then 0 else v.lowerBoundIn other e).sum
  mid + others + if withDelta then v.lowerBoundDelta e else 0

def selectIn (run : Run) (r k : ℕ) (withDelta : Bool) : Option Entry :=
  match bisect (fun mid => compare (v.globalRankInRun run r withDelta mid) k) run.len with
  | .ok mid => some (run.entries.getD mid default)
  | .error _ => none

def entryByDeltaRank (rank : ℕ) : Entry := v.arrivals.getD (v.sorted.getD rank 0) default

def globalRankOfDeltaEntry (e : Entry) (deltaPos : ℕ) : ℕ :=
  deltaPos + (v.runs.map fun run => v.lowerBoundIn run e).sum

/-- The loop over the runs in `select_sealed` and `select_global`. -/
def selectInRuns (k : ℕ) (withDelta : Bool) : Option Entry :=
  v.runs.zipIdx.findSome? fun (run, r) => v.selectIn run r k withDelta

def selectSealed (k : ℕ) : Except Denial Entry :=
  match v.selectInRuns k false with
  | some e => .ok e
  | none => .error .bookkeepingBroken

def selectGlobal (k : ℕ) : Except Denial Entry :=
  match v.selectInRuns k true with
  | some e => .ok e
  | none =>
    match bisect (fun mid =>
      compare (v.globalRankOfDeltaEntry (v.entryByDeltaRank mid) mid) k) v.sorted.length with
    | .ok mid => .ok (v.entryByDeltaRank mid)
    | .error _ => .error .bookkeepingBroken

def entryOf (c : ℕ) : Except Denial Entry :=
  if c < v.sealedLen then
    match v.runs with
    | [run] => .ok (run.entries.getD c default)
    | _ => v.selectSealed c
  else if v.arrivals.length ≤ c - v.sealedLen then
    .error (.visibilityOverflow (c + 1) v.len)
  else .ok (v.arrivals.getD (c - v.sealedLen) default)

def resolve (c : ℕ) : Except Denial Bytes := do
  let e ← v.entryOf c
  .ok (v.store e.span)

def cmp (ca cb : ℕ) : Except Denial Ordering :=
  if v.len ≤ ca then .error (.visibilityOverflow (ca + 1) v.len)
  else if v.len ≤ cb then .error (.visibilityOverflow (cb + 1) v.len)
  else if ca = cb then .ok .eq
  else if ca < v.sealedLen ∧ cb < v.sealedLen then .ok (compare ca cb)
  else do
    let ea ← v.entryOf ca
    let eb ← v.entryOf cb
    .ok (ea.cmpEntry eb v.store)

def rank (value : Bytes) : Except Denial (Except ℕ ℕ) :=
  if u32Max < value.length then .error .extentOverflow
  else
    let np := prefix4 value
    let sealedPart := searchRuns v.runs np value v.store
    match binarySearchBy (fun i => (v.arrivals.getD i default).cmpNeedle np value v.store)
        v.sorted with
    | .ok pos => .ok (.ok (sealedPart.1 + pos))
    | .error pos =>
      .ok (if sealedPart.2 then .ok (sealedPart.1 + pos) else .error (sealedPart.1 + pos))

def select (k : ℕ) : Except Denial Bytes :=
  if v.len ≤ k then .error (.visibilityOverflow (k + 1) v.len)
  else do
    let e ← v.selectGlobal k
    .ok (v.store e.span)

end View

/-! ## Observers -/

/-- An observer: the shared read core under an arena identity and an epoch.  The live `Frame` and
the pinned `Snapshot` differ only in the store they read from. -/
structure Observer where
  arena : ℕ
  epoch : ℕ
  /-- What is visible. -/
  view : View

namespace Observer

variable (o : Observer)

/-- `Frame::check` and `Snapshot::check`. -/
def check (sc : StampedCode) : Except Denial ℕ := do
  proveShared o.arena o.epoch sc.arena sc.epoch
  if o.view.len ≤ sc.code then .error (.visibilityOverflow (sc.code + 1) o.view.len)
  else .ok sc.code

/-- `Frame::resolve` and `Snapshot::resolve`. -/
def resolve (sc : StampedCode) : Except Denial Bytes := do
  let c ← o.check sc
  o.view.resolve c

/-- `Frame::cmp_codes` and `Snapshot::cmp_codes`. -/
def cmpCodes (a b : StampedCode) : Except Denial Ordering := do
  let ca ← o.check a
  let cb ← o.check b
  o.view.cmp ca cb

/-- `Frame::rank` and `Snapshot::rank`. -/
def rank (value : Bytes) : Except Denial (Except ℕ ℕ) := o.view.rank value

/-- `Frame::select` and `Snapshot::select`. -/
def select (k : ℕ) : Except Denial Bytes := o.view.select k

end Observer

/-! ## The epoch remap -/

/-- The transition's artifact (`EpochRemap`). -/
structure EpochRemap where
  arena : ℕ
  /-- The epoch it reads codes from. -/
  source : ℕ
  /-- The epoch it restamps codes into. -/
  target : ℕ
  /-- Sealed length of the source epoch. -/
  fromSealedLen : ℕ
  /-- New ranks of the values the seal inserted, ascending. -/
  inserted : List ℕ
  /-- Arrival index to new sealed code. -/
  tail : List ℕ
  deriving DecidableEq, Repr

namespace EpochRemap

def applyRaw (m : EpochRemap) (c : ℕ) : Except Denial ℕ :=
  if c < m.fromSealedLen then
    -- The number of inserted entries whose position lies at or below the old rank.
    let lo := partitionPoint (fun (d, i) => d - i ≤ c) m.inserted.zipIdx
    if c + lo ≤ u32Max then .ok (c + lo) else .error .codeRemapOverflow
  else if m.tail.length ≤ c - m.fromSealedLen then
    .error (.visibilityOverflow (c + 1) (m.fromSealedLen + m.tail.length))
  else .ok (m.tail.getD (c - m.fromSealedLen) 0)

def apply (m : EpochRemap) (sc : StampedCode) : Except Denial StampedCode := do
  proveShared m.arena m.source sc.arena sc.epoch
  let code ← m.applyRaw sc.code
  .ok ⟨code, m.target, m.arena⟩

end EpochRemap

/-! ## The arena -/

/-- `take_geometric_merge_pair`: the last two runs and what is left, when a cascade is due. -/
def takeGeometricMergePair (runs : List Run) : Option ((Run × Run) × List Run) :=
  if runs.length < 2 then none
  else
    let last := runs.getD (runs.length - 1) ⟨[]⟩
    let prev := runs.getD (runs.length - 2) ⟨[]⟩
    if 2 * last.len < prev.len then none else some ((prev, last), runs.take (runs.length - 2))

/-- The cascade loop of `seal`; every round leaves one run less, so the number of runs bounds it. -/
def cascade (h : Heap) : ℕ → List Run → Except Denial Unit × List Run
  | 0, runs => (.ok (), runs)
  | bound + 1, runs =>
    match takeGeometricMergePair runs with
    | none => (.ok (), runs)
    | some ((a, b), rest) =>
      match a.merge b h with
      | .error e => (.error e, rest)
      | .ok merged => cascade h bound (rest ++ [merged])

/-- The interning arena (`Arena`). -/
structure Arena where
  /-- Process-unique identity. -/
  id : ℕ
  /-- Payload storage. -/
  heap : Heap
  /-- Sealed runs, oldest first. -/
  runs : List Run
  /-- Total sealed values. -/
  sealedLen : ℕ
  /-- Values since the last seal. -/
  delta : Delta
  epoch : ℕ

namespace Arena

/-- `Arena::try_new`, with the identity it minted. -/
def new (id : ℕ) : Arena := ⟨id, Heap.new, [], 0, Delta.new, 0⟩

def len (a : Arena) : ℕ := a.sealedLen + a.delta.arrivals.length

/-- `Arena::frame`: the live observer. -/
def frame (a : Arena) : Observer :=
  ⟨a.id, a.epoch, ⟨a.runs, a.sealedLen, a.delta.arrivals, a.delta.sorted, a.heap.payload⟩⟩

/-- `Arena::snapshot`: the pinned observer, and the arena with its live chunk frozen. -/
def snapshot (a : Arena) : Observer × Arena :=
  let heap := a.heap.freezeLive
  (⟨a.id, a.epoch,
      ⟨a.runs, a.sealedLen, a.delta.arrivals, a.delta.sorted, frozenPayload heap.frozen⟩⟩,
    { a with heap := heap })

/-- A code stamped with the arena's identity and current epoch. -/
def stamp (a : Arena) (code : ℕ) : StampedCode := ⟨code, a.epoch, a.id⟩

def intern (a : Arena) (value : Bytes) : Except Denial StampedCode × Arena :=
  if u32Max ≤ a.len then (.error .extentOverflow, a)
  else if u32Max < value.length then (.error .extentOverflow, a)
  else
    let np := prefix4 value
    let sealedPart := searchRuns a.runs np value a.heap.payload
    if sealedPart.2 then (.ok (a.stamp (asU32 sealedPart.1)), a)
    else
      match a.delta.search np value a.heap.payload with
      | .ok pos => (.ok (a.stamp (asU32 (a.sealedLen + a.delta.sorted.getD pos 0))), a)
      | .error pos =>
        match a.heap.push value with
        | (.error e, heap) => (.error e, { a with heap := heap })
        | (.ok span, heap) =>
          let arrival := a.delta.arrivals.length
          (.ok (a.stamp (asU32 (a.sealedLen + arrival))), { a with
              heap := heap
              delta := ⟨a.delta.arrivals ++ [Entry.new span heap],
                a.delta.sorted.insertIdx pos arrival⟩ })

/-- The rank of a delta value over the runs, which must not hold it. -/
def sealedRank (runs : List Run) (np bytes : Bytes) (store : Store) : Except Denial ℕ :=
  let part := searchRuns runs np bytes store
  if part.2 then .error .bookkeepingBroken else .ok part.1

/-- The rank loop of `seal` over the delta in payload order: the inserted ranks and the tail map. -/
def sealRanks (a : Arena) : List ℕ → List ℕ × List ℕ → Except Denial (List ℕ × List ℕ)
  | [], acc => .ok acc
  | j :: js, (inserted, tail) => do
    let entry := a.delta.entryByRank j
    let rank ← sealedRank a.runs entry.pre (a.heap.payload entry.span) a.heap.payload
    let newRank := asU32 (rank + j)
    sealRanks a js (inserted ++ [newRank], tail.set (a.delta.sorted.getD j 0) newRank)

/-- The drained delta as a run. -/
def deltaRun (a : Arena) : Run := ⟨a.delta.sorted.map fun i => a.delta.arrivals.getD i default⟩

/-- `Arena::seal`. -/
def sealEpoch (a : Arena) : Except Denial EpochRemap × Arena :=
  let deltaN := a.delta.arrivals.length
  match a.sealRanks (List.range deltaN) ([], List.replicate deltaN 0) with
  | .error e => (.error e, a)
  | .ok (inserted, tail) =>
    let drained := if deltaN = 0 then (.ok (), a.runs)
      else cascade a.heap (a.runs ++ [a.deltaRun]).length (a.runs ++ [a.deltaRun])
    match drained with
    | (.error e, runs) => (.error e, { a with delta := Delta.new, runs := runs })
    | (.ok (), runs) =>
      let a' := { a with delta := Delta.new, runs := runs, sealedLen := a.sealedLen + deltaN }
      -- The epoch is a `u64` counter.
      if a.epoch + 1 < 2 ^ 64 then
        (.ok ⟨a.id, a.epoch, a.epoch + 1, asU32 a.sealedLen, inserted, tail⟩,
          { a' with epoch := a.epoch + 1 })
      else (.error .extentOverflow, a')

end Arena

/-! ## The naive dictionary -/

/-- The dictionary stated naively (`Naive`): a sorted sealed list and a tail in arrival order. -/
structure Naive where
  /-- Sorted, unique. -/
  sealed : List Bytes
  /-- Arrival order, unique, disjoint from the sealed values. -/
  tail : List Bytes
  epoch : ℕ

namespace Naive

def new : Naive := ⟨[], [], 0⟩

variable (n : Naive)

def len : ℕ := n.sealed.length + n.tail.length

/-- All values, in code order. -/
def values : List Bytes := n.sealed ++ n.tail

def intern (b : Bytes) : ℕ × Naive :=
  if b ∈ n.sealed then (n.sealed.idxOf b, n)
  else if b ∈ n.tail then (n.sealed.length + n.tail.idxOf b, n)
  else (n.sealed.length + n.tail.length, { n with tail := n.tail ++ [b] })

def unionSorted : List Bytes := sortAll n.values

/-- What an observer answers for a code: the value in code order (`Naive::resolve`), refused beyond
the last code. -/
def resolve (c : ℕ) : Except Denial Bytes :=
  match n.values[c]? with
  | some b => .ok b
  | none => .error (.visibilityOverflow (c + 1) n.len)

/-- What an observer answers for two codes: the byte order of their values. -/
def cmp (ca cb : ℕ) : Except Denial Ordering :=
  if n.len ≤ ca then .error (.visibilityOverflow (ca + 1) n.len)
  else if n.len ≤ cb then .error (.visibilityOverflow (cb + 1) n.len)
  else .ok (compare (n.values.getD ca []) (n.values.getD cb []))

/-- What an observer answers for a value: how many values lie below it, and whether it is one. -/
def rank (value : Bytes) : Except Denial (Except ℕ ℕ) :=
  if u32Max < value.length then .error .extentOverflow
  else if value ∈ n.values then .ok (.ok (rankIn n.values value))
  else .ok (.error (rankIn n.values value))

/-- What an observer answers for a rank: the value at that place of the sorted union. -/
def select (k : ℕ) : Except Denial Bytes :=
  match n.unionSorted[k]? with
  | some b => .ok b
  | none => .error (.visibilityOverflow (k + 1) n.len)

/-- `Naive::seal`: the new dictionary, and each old code's new code. -/
def sealEpoch : List ℕ × Naive :=
  (n.values.map fun v => (sortAll n.values).idxOf v, ⟨sortAll n.values, [], n.epoch + 1⟩)

end Naive

end Kyzo

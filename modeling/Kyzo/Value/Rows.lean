import Kyzo.Value.Canonical
import Kyzo.Value.Column

/-!
# Row containers

Tuples of one width as a flat column of codes.  A row enters through one of two doors: as stamped
codes, or as the bytes of a written key that are interned again.  Both push element by element, so
a refusal after the first element leaves codes behind that shift every later row.  This file says
exactly when a refused call leaves the container as it was.
-/

namespace Kyzo

open List CodeColumn

/-- The execution form of a relation fragment (`Rows`). -/
structure Rows where
  arity : ℕ
  /-- No width is zero. -/
  arity_pos : 0 < arity
  /-- The codes of all rows, row after row. -/
  codes : CodeColumn

/-- Refusals of the door for bytes (`PushError`). -/
inductive PushError where
  | decode (e : DecodeError)
  | foreignArena
  | staleDomain (container arena : ℕ)
  | denial (e : Denial)

/-- `split_key`: the bytes of exactly `arity` encodings, with nothing after them. -/
def splitKey : ℕ → Bytes → Except DecodeError (List Bytes)
  | 0, bytes => if bytes ≠ [] then .error .trailingBytes else .ok []
  | arity + 1, bytes => do
    let (_, used) ← decodeOne bytes
    let splits ← splitKey arity (bytes.drop used)
    .ok (bytes.take used :: splits)

/-- The element loop of `push_row`. -/
def pushStamps : List StampedCode → CodeColumn → Except Denial Unit × CodeColumn
  | [], c => (.ok (), c)
  | sc :: stamps, c =>
    match c.push sc with
    | (.error e, c) => (.error e, c)
    | (.ok _, c) => pushStamps stamps c

/-- The element loop of `push_encoded`: every element is interned and its stamp pushed. -/
def pushSplits : List Bytes → CodeColumn → Arena → Except Denial Unit × CodeColumn × Arena
  | [], c, a => (.ok (), c, a)
  | split :: splits, c, a =>
    match a.intern split with
    | (.error e, a) => (.error e, c, a)
    | (.ok sc, a) =>
      match c.push sc with
      | (.error e, c) => (.error e, c, a)
      | (.ok _, c) => pushSplits splits c a

namespace Rows

section

variable (r : Rows)

def len : ℕ := r.codes.codes.length / r.arity

/-- `AdmittedRows::row`: the codes of one row. -/
def row (i : ℕ) : List ℕ := (r.codes.codes.drop (i * r.arity)).take r.arity

def pushRow (stamps : List StampedCode) : Except Denial Unit × Rows :=
  if stamps.length ≠ r.arity then (.error (.arityMismatch r.arity stamps.length), r)
  else
    let pushed := pushStamps stamps r.codes
    (pushed.1, { r with codes := pushed.2 })

def pushEncoded (key : Bytes) (a : Arena) : Except PushError Unit × Rows × Arena :=
  if r.codes.domain.arena ≠ a.id then (.error .foreignArena, r, a)
  else if r.codes.domain.epoch ≠ a.epoch then
    (.error (.staleDomain r.codes.domain.epoch a.epoch), r, a)
  else
    match splitKey r.arity key with
    | .error e => (.error (.decode e), r, a)
    | .ok splits =>
      let pushed := pushSplits splits r.codes a
      (pushed.1.mapError .denial, { r with codes := pushed.2.1 }, pushed.2.2)

/-! ## What a reader sees -/

/-- The sequence of rows. -/
def rows : List (List ℕ) := (range r.len).map r.row

/-- Later rows, all of them accepted. -/
def pushAll (later : List (List StampedCode)) : Except Denial Rows :=
  later.foldlM (fun r stamps =>
    match r.pushRow stamps with
    | (.error e, _) => .error e
    | (.ok _, r) => .ok r) r

end

/-- After the call as if it had not happened: whatever rows are pushed next, they are accepted as
before and the rows read the same. -/
def Unaffected (before after : Rows) : Prop :=
  ∀ later final, before.pushAll later = .ok final →
    ∃ final', after.pushAll later = .ok final' ∧ final'.rows = final.rows

lemma flatten_rows (r : Rows) : r.rows.flatten = r.codes.codes.take (r.len * r.arity) := by
  have hstep : ∀ n, ((range n).map r.row).flatten = r.codes.codes.take (n * r.arity) := by
    intro n
    induction n with
    | zero => simp
    | succ n ih =>
      rw [range_succ, map_append, flatten_append, ih, map_singleton,
        flatten_singleton, row, Nat.succ_mul, ← take_add]
  exact hstep r.len

end Rows

/-! ## The write door of a column -/

/-- The stamp belongs to the domain. -/
def Domain.Covers (d : Domain) (sc : StampedCode) : Prop :=
  sc.arena = d.arena ∧ sc.epoch = d.epoch ∧ sc.code < u32Max

instance (d : Domain) (sc : StampedCode) : Decidable (d.Covers sc) :=
  inferInstanceAs (Decidable (_ ∧ _))

/-- Two domains of one arena and one epoch. -/
def Domain.Shares (d d' : Domain) : Prop := d'.arena = d.arena ∧ d'.epoch = d.epoch

lemma Domain.Shares.covers_iff {d d' : Domain} (h : d.Shares d') (sc : StampedCode) :
    d'.Covers sc ↔ d.Covers sc := by
  rw [Domain.Covers, Domain.Covers, h.1, h.2]

variable {c : CodeColumn} {sc : StampedCode}

namespace CodeColumn

lemma push_of_covers (h : c.domain.Covers sc) :
    c.push sc = (.ok (), ⟨⟨c.domain.arena, c.domain.epoch, max c.domain.extent (sc.code + 1)⟩,
      c.codes ++ [sc.code]⟩) := by
  obtain ⟨harena, hepoch, hcode⟩ := h
  simp [push, Domain.absorbStamp, proveShared, harena, hepoch, Nat.not_le.mpr hcode, bind,
    Except.bind]

lemma push_of_not_covers (h : ¬ c.domain.Covers sc) : ∃ e, c.push sc = (.error e, c) := by
  unfold push Domain.absorbStamp proveShared
  by_cases harena : c.domain.arena = sc.arena
  · by_cases hepoch : c.domain.epoch = sc.epoch
    · have hcode : u32Max ≤ sc.code := by
        by_contra hlt
        exact h ⟨harena.symm, hepoch.symm, Nat.not_le.mp hlt⟩
      exact ⟨.extentOverflow, by simp [harena, hepoch, hcode, bind, Except.bind]⟩
    · exact ⟨.epochMismatch c.domain.epoch sc.epoch, by simp [harena, hepoch, bind, Except.bind]⟩
  · exact ⟨.arenaMismatch c.domain.arena sc.arena, by simp [harena, bind, Except.bind]⟩

end CodeColumn

/-- What pushing does to a column, whether it ends in a refusal or not: codes are added at the end
and the domain stays that of the same arena and epoch. -/
structure CodeColumn.Grows (c c' : CodeColumn) (added : List ℕ) : Prop where
  codes : c'.codes = c.codes ++ added
  shares : c.domain.Shares c'.domain

lemma CodeColumn.Grows.cons {c c' : CodeColumn} {extent code : ℕ} {added : List ℕ}
    (h : Grows ⟨⟨c.domain.arena, c.domain.epoch, extent⟩, c.codes ++ [code]⟩ c' added) :
    c.Grows c' (code :: added) :=
  ⟨by simpa using h.codes, h.shares⟩

attribute [local simp] pushStamps pushSplits

variable {stamps : List StampedCode}

lemma pushStamps_of_covers (h : ∀ sc ∈ stamps, c.domain.Covers sc) :
    (pushStamps stamps c).1 = .ok () ∧
      c.Grows (pushStamps stamps c).2 (stamps.map StampedCode.code) := by
  induction stamps generalizing c with
  | nil => exact ⟨rfl, by simp [pushStamps], rfl, rfl⟩
  | cons sc stamps ih =>
    obtain ⟨hsc, hrest⟩ := forall_mem_cons.mp h
    have hpush := push_of_covers hsc
    have hnext := ih (c := (c.push sc).2) (by rw [hpush]; exact hrest)
    rw [hpush] at hnext
    rw [pushStamps, hpush]
    obtain ⟨hok, hcodes, hshares⟩ := hnext
    exact ⟨hok, by simp [hcodes], hshares⟩

lemma pushStamps_of_not_covers (h : ¬ ∀ sc ∈ stamps, c.domain.Covers sc) :
    ∃ e, (pushStamps stamps c).1 = .error e := by
  induction stamps generalizing c with
  | nil => simp at h
  | cons sc stamps ih =>
    by_cases hsc : c.domain.Covers sc
    · have hpush := push_of_covers hsc
      obtain ⟨e, he⟩ := ih (c := (c.push sc).2) (by
        rw [hpush]
        intro hrest
        exact h (forall_mem_cons.mpr ⟨hsc, hrest⟩))
      rw [hpush] at he
      exact ⟨e, by rw [pushStamps, hpush]; exact he⟩
    · obtain ⟨e, he⟩ := push_of_not_covers hsc
      exact ⟨e, by rw [pushStamps, he]⟩

lemma pushStamps_grows (stamps : List StampedCode) (c : CodeColumn) :
    ∃ added, c.Grows (pushStamps stamps c).2 added := by
  induction stamps generalizing c with
  | nil => exact ⟨[], by simp [pushStamps], rfl, rfl⟩
  | cons sc stamps ih =>
    by_cases hsc : c.domain.Covers sc
    · have hpush := push_of_covers hsc
      obtain ⟨added, hgrows⟩ := ih (c.push sc).2
      rw [pushStamps, hpush]
      rw [hpush] at hgrows
      exact ⟨sc.code :: added, hgrows.cons⟩
    · obtain ⟨e, he⟩ := push_of_not_covers hsc
      rw [pushStamps, he]
      exact ⟨[], by simp, rfl, rfl⟩

lemma pushStamps_cons_grows (hsc : c.domain.Covers sc) (stamps : List StampedCode) :
    ∃ added, c.Grows (pushStamps (sc :: stamps) c).2 (sc.code :: added) := by
  have hpush := push_of_covers hsc
  obtain ⟨added, hgrows⟩ := pushStamps_grows stamps (c.push sc).2
  rw [pushStamps, hpush]
  rw [hpush] at hgrows
  exact ⟨added, hgrows.cons⟩

/-- The arena interns every element, one after the other, to a stamp of the domain. -/
def AllEnter (d : Domain) : Arena → List Bytes → Prop
  | _, [] => True
  | a, split :: splits =>
    (∃ sc, (a.intern split).1 = .ok sc ∧ d.Covers sc) ∧ AllEnter d (a.intern split).2 splits

variable {splits : List Bytes} {a : Arena}

lemma AllEnter.of_shares {d d' : Domain} (hd : d.Shares d')
    (h : AllEnter d a splits) : AllEnter d' a splits := by
  induction splits generalizing a with
  | nil => trivial
  | cons split splits ih =>
    obtain ⟨⟨sc, hintern, hsc⟩, hrest⟩ := h
    exact ⟨⟨sc, hintern, (hd.covers_iff sc).mpr hsc⟩, ih hrest⟩

lemma pushSplits_of_allEnter
    (h : AllEnter c.domain a splits) : (pushSplits splits c a).1 = .ok () := by
  induction splits generalizing c a with
  | nil => rfl
  | cons split splits ih =>
    obtain ⟨⟨sc, hintern, hsc⟩, hrest⟩ := h
    have hpush := push_of_covers hsc
    have hnext := ih (c := (c.push sc).2)
      (hrest.of_shares (by rw [hpush]; exact ⟨rfl, rfl⟩))
    have hpair : a.intern split = (.ok sc, (a.intern split).2) := Prod.ext hintern rfl
    rw [pushSplits, hpair]
    simpa only [hpush] using hnext

lemma pushSplits_of_not_allEnter
    (h : ¬ AllEnter c.domain a splits) : ∃ e, (pushSplits splits c a).1 = .error e := by
  induction splits generalizing c a with
  | nil => exact absurd trivial h
  | cons split splits ih =>
    rw [pushSplits]
    rcases hintern : a.intern split with ⟨e | sc, a'⟩
    · exact ⟨e, rfl⟩
    · by_cases hsc : c.domain.Covers sc
      · have hpush := push_of_covers hsc
        obtain ⟨e, he⟩ := ih (c := (c.push sc).2) (by
          intro hrest
          refine h ⟨⟨sc, by rw [hintern], hsc⟩, ?_⟩
          rw [hintern]
          exact hrest.of_shares (by rw [hpush]; exact ⟨rfl, rfl⟩))
        exact ⟨e, by simpa only [hpush] using he⟩
      · obtain ⟨e, he⟩ := push_of_not_covers hsc
        exact ⟨e, by simp [he]⟩

lemma pushSplits_grows (splits : List Bytes) (c : CodeColumn) (a : Arena) :
    ∃ added, c.Grows (pushSplits splits c a).2.1 added := by
  induction splits generalizing c a with
  | nil => exact ⟨[], by simp [pushSplits], rfl, rfl⟩
  | cons split splits ih =>
    rw [pushSplits]
    rcases a.intern split with ⟨e | sc, a'⟩
    · exact ⟨[], by simp, rfl, rfl⟩
    · by_cases hsc : c.domain.Covers sc
      · have hpush := push_of_covers hsc
        obtain ⟨added, hgrows⟩ := ih (c.push sc).2 a'
        simp only [hpush] at hgrows ⊢
        exact ⟨sc.code :: added, hgrows.cons⟩
      · obtain ⟨e, he⟩ := push_of_not_covers hsc
        simp only [he]
        exact ⟨[], by simp, rfl, rfl⟩

variable {split : Bytes}

lemma pushSplits_cons_grows (h : AllEnter c.domain a [split]) (splits : List Bytes) :
    ∃ p added, c.Grows (pushSplits (split :: splits) c a).2.1 (p :: added) := by
  obtain ⟨⟨sc, hintern, hsc⟩, -⟩ := h
  have hpair : a.intern split = (.ok sc, (a.intern split).2) := Prod.ext hintern rfl
  have hpush := push_of_covers hsc
  obtain ⟨added, hgrows⟩ := pushSplits_grows splits (c.push sc).2 (a.intern split).2
  rw [pushSplits, hpair]
  simp only [hpush] at hgrows ⊢
  exact ⟨sc.code, added, hgrows.cons⟩

lemma pushSplits_cons_of_not_enters (h : ¬ AllEnter c.domain a [split]) (splits : List Bytes) :
    (pushSplits (split :: splits) c a).2.1 = c := by
  rw [pushSplits]
  rcases hintern : a.intern split with ⟨e | sc, a'⟩
  · rfl
  · have hsc : ¬ c.domain.Covers sc := fun hsc => h ⟨⟨sc, by rw [hintern], hsc⟩, trivial⟩
    obtain ⟨e, he⟩ := push_of_not_covers hsc
    simp [he]

/-! ## Codes left behind -/

namespace Rows

/-- A container that took in codes beyond the rows of the other reads differently once one more row
is pushed to both. -/
theorem not_unaffected {before : Rows} {codes : CodeColumn} {p : ℕ} {added : List ℕ}
    (hgrows : before.codes.Grows codes (p :: added)) :
    ¬ before.Unaffected { before with codes := codes } := by
  intro hsame
  -- One row of a code different from the first one left behind.
  obtain ⟨x, hx, hxp⟩ : ∃ x, x < u32Max ∧ x ≠ p := by
    by_cases hp : p = 0
    · exact ⟨1, by decide, by omega⟩
    · exact ⟨0, by decide, by omega⟩
  let next : List StampedCode :=
    replicate before.arity ⟨x, before.codes.domain.epoch, before.codes.domain.arena⟩
  have hcovers : ∀ sc ∈ next, before.codes.domain.Covers sc := by
    intro sc hsc
    obtain rfl := eq_of_mem_replicate hsc
    exact ⟨rfl, rfl, hx⟩
  have hlen : next.length = before.arity := length_replicate
  have hpush : ∀ r : Rows, r.arity = before.arity → before.codes.domain.Shares r.codes.domain →
      ∃ r', r.pushAll [next] = .ok r' ∧ r'.arity = r.arity ∧
        r'.codes.codes = r.codes.codes ++ replicate before.arity x := by
    intro r hr hshares
    obtain ⟨hok, hcodes, -⟩ := pushStamps_of_covers
      fun sc (hsc : sc ∈ next) => (hshares.covers_iff sc).mpr (hcovers sc hsc)
    refine ⟨(r.pushRow next).2, ?_, ?_, ?_⟩
    · simp only [pushAll, foldlM_cons, foldlM_nil, pushRow, hlen, hr, ne_eq,
        not_true_eq_false, if_false, hok]
      rfl
    · simp [pushRow, hlen, hr]
    · simp [pushRow, hlen, hr, hcodes, next]
  obtain ⟨final, hfinal, hfarity, hfcodes⟩ := hpush before rfl ⟨rfl, rfl⟩
  obtain ⟨final', hfinal', hfarity', hfcodes'⟩ :=
    hpush { before with codes := codes } rfl hgrows.shares
  obtain ⟨final'', hfinal'', hrows⟩ := hsame [next] final hfinal
  obtain rfl : final' = final'' := by
    rw [hfinal'] at hfinal''
    exact Except.ok.inj hfinal''
  -- The two readings differ at the first code left behind.
  have hflat := congrArg flatten hrows
  rw [flatten_rows, flatten_rows] at hflat
  have hpos := before.arity_pos
  have hread : ∀ r : Rows, r.arity = before.arity →
      before.codes.codes.length + before.arity ≤ r.codes.codes.length →
      (r.codes.codes.take (r.len * r.arity))[before.codes.codes.length]? =
        r.codes.codes[before.codes.codes.length]? := by
    intro r hr hle
    have hdiv := Nat.lt_div_mul_add hpos (a := r.codes.codes.length)
    rw [len, hr, getElem?_take_of_lt (by omega)]
  have hindex := congrArg (fun l => l[before.codes.codes.length]?) hflat
  rw [hread final' hfarity' (by rw [hfcodes', hgrows.codes]; simp; omega),
    hread final hfarity (by rw [hfcodes]; simp), hfcodes, hfcodes', hgrows.codes] at hindex
  rw [append_assoc, getElem?_append_right le_rfl, getElem?_append_right le_rfl,
    Nat.sub_self, getElem?_replicate_of_lt hpos] at hindex
  exact hxp (Option.some.inj hindex).symm

lemma Unaffected.refl (r : Rows) : r.Unaffected r := fun _ final h => ⟨final, h, rfl⟩

/-! ## When the doors are atomic -/

variable (r : Rows) (stamps : List StampedCode)

/-- The stamps are of another width, or the first one is refused, or all belong to the domain. -/
def StampsTogether : Prop :=
  stamps.length = r.arity → (∀ sc ∈ stamps.take 1, r.codes.domain.Covers sc) →
    ∀ sc ∈ stamps, r.codes.domain.Covers sc

/-- The container or the key is refused as a whole, or the first element is, or all elements
enter. -/
def SplitsTogether (r : Rows) (key : Bytes) (a : Arena) : Prop :=
  r.codes.domain.arena = a.id → r.codes.domain.epoch = a.epoch →
    ∀ splits, splitKey r.arity key = .ok splits →
      AllEnter r.codes.domain a (splits.take 1) → AllEnter r.codes.domain a splits

/-- `push_row` is atomic exactly on stamps that go together. -/
theorem pushRow_atomic_iff :
    (∀ e, (r.pushRow stamps).1 = .error e → r.Unaffected (r.pushRow stamps).2) ↔
      r.StampsTogether stamps := by
  by_cases hlen : stamps.length = r.arity
  · obtain ⟨sc, rest, rfl⟩ := exists_cons_of_length_pos (hlen ▸ r.arity_pos)
    have hrow : r.pushRow (sc :: rest) = ((pushStamps (sc :: rest) r.codes).1,
        { r with codes := (pushStamps (sc :: rest) r.codes).2 }) := by
      rw [pushRow, if_neg (not_not.mpr hlen)]
    rw [hrow]
    constructor
    · intro hatomic _ hfirst
      by_contra hall
      obtain ⟨e, he⟩ := pushStamps_of_not_covers hall
      obtain ⟨added, hgrows⟩ := pushStamps_cons_grows (hfirst sc (by simp)) rest
      exact not_unaffected hgrows (hatomic e he)
    · intro htogether e he
      by_cases hsc : r.codes.domain.Covers sc
      · obtain ⟨hok, -⟩ := pushStamps_of_covers (htogether hlen (by simpa using hsc))
        exact absurd (hok.symm.trans he) (by simp)
      · obtain ⟨e', he'⟩ := push_of_not_covers hsc
        simp only [pushStamps, he']
        exact Unaffected.refl r
  · rw [pushRow, if_pos hlen]
    exact ⟨fun _ h => absurd h hlen, fun _ _ _ => Unaffected.refl r⟩

lemma length_of_splitKey {arity : ℕ} {key : Bytes}
    (h : splitKey arity key = .ok splits) : splits.length = arity := by
  induction arity generalizing key splits with
  | zero =>
    rw [splitKey] at h
    split at h
    · cases h
    · cases h
      rfl
  | succ arity ih =>
    obtain ⟨⟨_, used⟩, -, h⟩ := bind_ok h
    obtain ⟨rest, hrest, h⟩ := bind_ok h
    cases h
    rw [length_cons, ih hrest]

/-- `push_encoded` is atomic exactly on keys whose elements go together. -/
theorem pushEncoded_atomic_iff (r : Rows) (key : Bytes) (a : Arena) :
    (∀ e, (r.pushEncoded key a).1 = .error e → r.Unaffected (r.pushEncoded key a).2.1) ↔
      r.SplitsTogether key a := by
  by_cases harena : r.codes.domain.arena = a.id
  case neg =>
    rw [pushEncoded, if_pos harena]
    exact ⟨fun _ h => absurd h harena, fun _ _ _ => Unaffected.refl r⟩
  by_cases hepoch : r.codes.domain.epoch = a.epoch
  case neg =>
    rw [pushEncoded, if_neg (not_not.mpr harena), if_pos hepoch]
    exact ⟨fun _ _ h => absurd h hepoch, fun _ _ _ => Unaffected.refl r⟩
  rw [pushEncoded, if_neg (not_not.mpr harena), if_neg (not_not.mpr hepoch)]
  rcases hsplits : splitKey r.arity key with e | splits
  · refine ⟨fun _ _ _ splits h => ?_, fun _ _ _ => Unaffected.refl r⟩
    rw [hsplits] at h
    cases h
  · obtain ⟨split, rest, rfl⟩ :=
      exists_cons_of_length_pos ((length_of_splitKey hsplits) ▸ r.arity_pos)
    constructor
    · intro hatomic _ _ splits h hfirst
      obtain rfl : split :: rest = splits := Except.ok.inj (hsplits.symm.trans h)
      by_contra hall
      obtain ⟨e, he⟩ := pushSplits_of_not_allEnter hall
      obtain ⟨p, added, hgrows⟩ := pushSplits_cons_grows hfirst rest
      refine not_unaffected hgrows (hatomic (.denial e) ?_)
      simp only [he, Except.mapError]
    · intro htogether e he
      by_cases hfirst : AllEnter r.codes.domain a [split]
      · have hok := pushSplits_of_allEnter (htogether harena hepoch _ hsplits hfirst)
        simp only [hok, Except.mapError] at he
        cases he
      · simp only [pushSplits_cons_of_not_enters hfirst rest]
        exact Unaffected.refl r

/-- For every container, every slice of stamps, every key and every arena: a refused `push_row`
leaves the container as it was exactly if the stamps go together, and a refused `push_encoded`
exactly if the elements of the key do. -/
theorem rows_doors_atomic_iff (key : Bytes) (a : Arena) :
    ((∀ e, (r.pushRow stamps).1 = .error e → r.Unaffected (r.pushRow stamps).2) ↔
      r.StampsTogether stamps) ∧
    ((∀ e, (r.pushEncoded key a).1 = .error e → r.Unaffected (r.pushEncoded key a).2.1) ↔
      r.SplitsTogether key a) :=
  ⟨pushRow_atomic_iff r stamps, pushEncoded_atomic_iff r key a⟩

/-- A row of a lawful stamp and a foreign one is refused and leaves the first code behind: the row
`1, 0` pushed next is read as `0, 1`. -/
theorem pushRow_torn :
    let r : Rows := ⟨2, by decide, ⟨⟨0, 0, 0⟩, []⟩⟩
    let torn := r.pushRow [⟨0, 0, 0⟩, ⟨0, 0, 1⟩]
    torn.1 = .error (.arenaMismatch 0 1) ∧
      (r.pushAll [[⟨1, 0, 0⟩, ⟨0, 0, 0⟩]]).map rows = .ok [[1, 0]] ∧
      (torn.2.pushAll [[⟨1, 0, 0⟩, ⟨0, 0, 0⟩]]).map rows = .ok [[0, 1]] := by
  decide

end Rows

end Kyzo

import Kyzo.Value.CanonicalRoundTrip

/-!
# Walking encodings without decoding them

The fixpoint stores keep rows as encodings and search them by encoded prefixes.  The grammar walk
finds where a value ends without building it, and agrees with the decoder where that accepts.
-/

namespace Kyzo

open List

/-! ## The grammar walk -/

/-- How many bytes the value at the front takes. -/
abbrev Walk := Bytes → Except DecodeError ℕ

def skipTerminated : Walk
  | [] => .error .truncated
  | b :: rest =>
    if b = 0x00 then
      match rest with
      | [] => .error .badEscape
      | c :: rest =>
        if c = 0x00 then .ok 2
        else if c = 0xFF then do
          let used ← skipTerminated rest
          .ok (used + 2)
        else .error .badEscape
    else do
      let used ← skipTerminated rest
      .ok (used + 1)

/-- The loop over items up to the sequence terminator. -/
def skipSequence (item : Walk) : ℕ → Walk
  | 0, _ => .error .truncated
  | bound + 1, body =>
    match body with
    | [] => .error .truncated
    | b :: _ =>
      if b = structSeqEnd then .ok 1
      else do
        let ilen ← item body
        let used ← skipSequence item bound (body.drop ilen)
        .ok (ilen + used)

/-- One entry of a JSON object: its key, read with its marker as one terminated string, and its
value. -/
def skipEntry (value : Walk) (body : Bytes) : Except DecodeError ℕ := do
  let klen ← skipTerminated body
  let vlen ← value (body.drop klen)
  .ok (klen + vlen)

/-- The number walk of `Num::decode_key`. -/
def skipNum (body : Bytes) : Except DecodeError ℕ := do
  let (_, used) ← decodeNum body
  .ok used

/-- `skip_json`, at nesting budget `MAX_DEPTH + 1 - depth`. -/
def skipJson : ℕ → Walk
  | 0, _ => .error .tooDeep
  | _ + 1, [] => .error .truncated
  | budget + 1, marker :: rest =>
    if marker = 0x05 ∨ marker = 0x06 ∨ marker = 0x07 then .ok 1
    else if marker = 0x10 then do
      let used ← skipNum rest
      .ok (1 + used)
    else if marker = 0x18 then do
      let used ← skipTerminated rest
      .ok (1 + used)
    else if marker = 0x48 then do
      let used ← skipSequence (skipJson budget) rest.length rest
      .ok (1 + used)
    else if marker = 0x4C then do
      let used ← skipSequence (skipEntry (skipJson budget)) rest.length rest
      .ok (1 + used)
    else .error (.badJsonMarker marker)

/-- A payload of a fixed width. -/
def skipWidth (n : ℕ) (body : Bytes) : Except DecodeError ℕ :=
  if body.length < n then .error .truncated else .ok n

/-- The component loop of a vector payload. -/
def skipComponents : ℕ → Walk
  | 0, _ => .ok 0
  | count + 1, body => do
    let nused ← skipNum body
    let used ← skipComponents count (body.drop nused)
    .ok (nused + used)

/-- One end of an interval payload. -/
def skipIntervalEnd : Walk
  | [] => .error .intervalNotCanonical
  | b :: rest =>
    if b = 0x01 then .ok 1
    else if b = 0x02 then if rest.length < 8 then .error .truncated else .ok 9
    else .error .intervalNotCanonical

/-- The interval branch of `skip_at`. -/
def skipInterval : Walk
  | [] => .error .truncated
  | b :: rest =>
    if b = 0x01 then .ok 1
    else if b = 0x02 then do
      let loUsed ← skipIntervalEnd rest
      let hiUsed ← skipIntervalEnd (rest.drop loUsed)
      .ok (1 + loUsed + hiUsed)
    else .error .intervalNotCanonical

/-- The regex branch of `skip_at`. -/
def skipRegex : Walk
  | [] => .error .truncated
  | b :: rest => do
    let _ ← okOr (RegexFlags.fromBits b) .badRegexFlags
    let used ← skipTerminated rest
    .ok (1 + used)

/-- The JSON branch of `skip_at`: the document is walked at a depth of its own. -/
def skipJsonHashed (body : Bytes) : Except DecodeError ℕ := do
  let jused ← skipJson (maxDepth + 1) body
  if body.length < jused + 8 then .error .truncated else .ok (jused + 8)

/-- The vector branch of `skip_at`. -/
def skipVector (body : Bytes) : Except DecodeError ℕ :=
  if body.length < 4 then .error .truncated
  else do
    let used ← skipComponents (beNat (body.take 4)) (body.drop 4)
    .ok (4 + used)

/-- The length of a payload behind its tag. -/
def skipTagged (r : Except DecodeError ℕ) : Except DecodeError ℕ := do
  let used ← r
  .ok (1 + used)

/-- `skip_at`, at nesting budget `MAX_DEPTH + 1 - depth`. -/
def skipAt : ℕ → Walk
  | 0, _ => .error .tooDeep
  | _ + 1, [] => .error .truncated
  | budget + 1, tagByte :: body =>
    match Tag.fromByte tagByte with
    | none => .error (.badTag tagByte)
    | some .null => .ok 1
    | some .bool => skipTagged (skipWidth 1 body)
    | some .num => skipTagged (skipNum body)
    | some .str => skipTagged (skipTerminated body)
    | some .bytes => skipTagged (skipTerminated body)
    | some .uuid => skipTagged (skipWidth 16 body)
    | some .list => skipTagged (skipSequence (skipAt budget) body.length body)
    | some .set => skipTagged (skipSequence (skipAt budget) body.length body)
    | some .regex => skipTagged (skipRegex body)
    | some .json => skipTagged (skipJsonHashed body)
    | some .vector => skipTagged (skipVector body)
    | some .validity => skipTagged (skipWidth 9 body)
    | some .interval => skipTagged (skipInterval body)
    | some .geometry => skipTagged (skipWidth 8 body)

def skipOne : Walk := skipAt (maxDepth + 1)

def barePrefixLen (bytes : Bytes) : ℕ → Option ℕ
  | 0 => some 0
  | cols + 1 =>
    if bytes = [] then none
    else do
      let used ← (skipOne bytes).toOption
      let rest ← barePrefixLen (bytes.drop used) cols
      some (used + rest)

/-! ## The walk over encodings -/

/-- On any bytes that begin with `w`, the walk takes exactly `w`. -/
def Spans (skip : Walk) (w : Bytes) : Prop := ∀ s, skip (w ++ s) = .ok w.length

section

variable {skip : Walk} {w : Bytes} (h : Spans skip w)
include h

lemma Spans.bind (s : Bytes) (f : ℕ → Except DecodeError ℕ) :
    (skip (w ++ s) >>= f) = f w.length := by
  rw [h s]
  rfl

/-- A walk behind a byte that names it. -/
lemma Spans.cons (b : UInt8) (s : Bytes) :
    (skip (w ++ s) >>= fun used => .ok (1 + used)) = .ok (b :: w).length := by
  rw [h.bind, length_cons, Nat.add_comm]

end

namespace Spans

lemma terminated (content : Bytes) : Spans skipTerminated (escape content) := by
  induction content with
  | nil => exact fun _ => rfl
  | cons b bs ih =>
    intro s
    by_cases hb : b = 0x00
    · rw [escape, if_pos hb, cons_append, cons_append, skipTerminated, if_pos rfl]
      exact ih.bind s _
    · rw [escape, if_neg hb, cons_append, skipTerminated.eq_def]
      simp only [if_neg hb]
      exact ih.bind s _

lemma num (n : Num) : Spans skipNum n.encodeKey := by
  intro s
  rw [skipNum, (decodeNum_faithful.reads n).bind]

lemma width {w : Bytes} {n : ℕ} (h : w.length = n) : Spans (skipWidth n) w := by
  intro s
  rw [skipWidth, if_neg (by simp [h]), h]

/-- The loop over items takes what is written of items that its step takes. -/
theorem sequence {α : Type} {item : Walk} {enc : α → Bytes} (items : List α)
    (hitem : ∀ x ∈ items, Spans item (enc x) ∧ ∃ b bs, enc x = b :: bs ∧ b ≠ structSeqEnd) :
    Spans (fun body => skipSequence item body.length body)
      (items.flatMap enc ++ [structSeqEnd]) := by
  suffices hbound : ∀ bound, items.length < bound →
      Spans (skipSequence item bound) (items.flatMap enc ++ [structSeqEnd]) by
    refine fun s => hbound _ (length_lt_flatMap items (fun x hx => ?_) s) s
    obtain ⟨b, bs, hx, -⟩ := (hitem x hx).2
    exact ⟨b, bs, hx⟩
  induction items with
  | nil =>
    rintro (_ | bound) hlt
    · cases hlt
    · exact fun _ => rfl
  | cons x xs ih =>
    rintro (_ | bound) hlt s
    · cases hlt
    obtain ⟨⟨hspan, b, bs, hx, hne⟩, hrest⟩ := forall_mem_cons.mp hitem
    have hround (t : Bytes) : skipSequence item (bound + 1) (enc x ++ t) =
        (item (enc x ++ t) >>= fun ilen =>
          skipSequence item bound ((enc x ++ t).drop ilen) >>= fun used => .ok (ilen + used)) := by
      rw [hx]
      exact if_neg hne
    rw [flatMap_cons, append_assoc, append_assoc, ← append_assoc _ _ s, hround, hspan.bind,
      drop_left, (ih hrest bound (Nat.lt_of_succ_lt_succ hlt)).bind]
    simp

lemma entry {α : Type} {value : Walk} {enc : α → Bytes} (entry : String × α)
    (h : Spans value (enc entry.2)) : Spans (skipEntry value) (encodeEntry enc entry) := by
  intro s
  -- The key's marker is an ordinary byte to the terminated walk.
  have hkey := terminated (0x18 :: asBytes entry.1)
  rw [encodeEntry, append_assoc, skipEntry]
  refine (hkey.bind _ _).trans ?_
  rw [show (0x18 :: encodeTerminated (asBytes entry.1)) = escape (0x18 :: asBytes entry.1) from rfl,
    drop_left, h.bind, length_append]

lemma json {j : RawJson} (hj : j.Lawful) {budget : ℕ} (h : j.depth < budget) :
    Spans (skipJson budget) (encodeJson j) := by
  induction hj generalizing budget <;> obtain _ | budget := budget
  all_goals try exact absurd h (Nat.not_lt_zero _)
  case null => exact fun _ => rfl
  case bool b => cases b <;> exact fun _ => rfl
  case num n => exact (num n.num).cons 0x10
  case str t => exact (terminated (asBytes t)).cons 0x18
  case arr items hitems ih =>
    rw [encodeJson, encodeJsonItems_eq]
    have hdeep := (RawJson.depthItems_lt_succ items budget).mp h
    exact (sequence items fun x hx => ⟨ih x hx (hdeep x hx), encodeJson_head x⟩).cons 0x48
  case obj entries hkeys hvals ih =>
    rw [encodeJson, encodeJsonEntries_eq]
    have hdeep := (RawJson.depthEntries_lt_succ entries budget).mp h
    exact (sequence entries fun x hx =>
      ⟨entry x (ih x hx (hdeep x hx)), _, _, rfl, by decide⟩).cons 0x4C

lemma jsonHashed {j : RawJson} (hj : j.Lawful) (h : j.depth ≤ maxDepth) :
    Spans skipJsonHashed (encodeJsonHashed j) := by
  intro s
  rw [encodeJsonHashed, append_assoc, skipJsonHashed, (json hj (Nat.lt_succ_of_le h)).bind]
  simp

lemma components (cs : List VectorComponent) :
    Spans (skipComponents cs.length) (cs.flatMap fun c => c.num.encodeKey) := by
  induction cs with
  | nil => exact fun _ => rfl
  | cons c cs ih =>
    intro s
    rw [length_cons, skipComponents, flatMap_cons, append_assoc, (num c.num).bind, drop_left,
      ih.bind, length_append]

lemma vector (v : Vector) :
    Spans skipVector (beBytes 4 v.dimension ++ v.components.flatMap fun c => c.num.encodeKey) := by
  intro s
  have hdim : beNat (beBytes 4 v.dimension) = v.components.length := by
    rw [beNat_beBytes]
    exact Nat.mod_eq_of_lt v.length_lt
  rw [append_assoc, skipVector, take_left' (length_beBytes 4 _), drop_left' (length_beBytes 4 _),
    hdim, (components v.components).bind]
  simp

lemma intervalEnd (t : Int64) : Spans skipIntervalEnd (0x02 :: ascTsKey t) := by
  intro s
  rw [cons_append, skipIntervalEnd, if_neg (by decide), if_pos rfl, if_neg (by simp)]
  simp

lemma interval (iv : Interval) : Spans skipInterval (encodeIntervalBody iv) := by
  obtain ⟨_ | ⟨lo, hi⟩, lawful⟩ := iv
  · exact fun _ => rfl
  have hlo : Spans skipIntervalEnd (encodeLo lo) := by
    cases lo
    exacts [fun _ => rfl, intervalEnd _]
  have hhi : Spans skipIntervalEnd (encodeHi hi) := by
    cases hi
    exacts [intervalEnd _, fun _ => rfl]
  intro s
  rw [show encodeIntervalBody ⟨.range lo hi, lawful⟩ =
    0x02 :: (encodeLo lo ++ encodeHi hi) from rfl,
    cons_append, append_assoc, skipInterval, if_neg (by decide), if_pos rfl, hlo.bind, drop_left,
    hhi.bind, length_cons, length_append]
  congr 1
  omega

lemma regex (r : RegexSource) :
    Spans skipRegex (r.flags.bits :: encodeTerminated (asBytes r.pattern)) := by
  intro s
  have hflags : okOr (RegexFlags.fromBits r.flags.bits) .badRegexFlags = .ok r.flags :=
    okOr_eq_ok.mpr (fromBits_eq_some.mpr rfl)
  rw [cons_append, skipRegex, hflags]
  exact (terminated _).cons _ s

end Spans

/-- What the walk crosses at a nesting budget: lists and sets count against it, and each JSON
document has a bound of its own. -/
def Walkable : ℕ → RawValue → Prop
  | 0, _ => False
  | budget + 1, .list items => ∀ x ∈ items, Walkable budget x
  | budget + 1, .set items => ∀ x ∈ items, Walkable budget x
  | _ + 1, .json j => j.depth ≤ maxDepth
  | _ + 1, _ => True

lemma walkable_of_depth {budget : ℕ} {v : RawValue} (hle : budget ≤ maxDepth + 1)
    (h : v.depth < budget) : Walkable budget v := by
  induction budget generalizing v with
  | zero => cases h
  | succ budget ih =>
    cases v with
    | list items | set items =>
      exact fun x hx => ih (by omega) ((RawValue.depthItems_lt_succ items budget).mp h x hx)
    | json j => exact Nat.le_of_lt_succ (Nat.lt_of_lt_of_le h hle)
    | _ => trivial

/-- **The walk takes exactly an encoding** within its bounds. -/
theorem skipAt_spans {v : RawValue} (hv : v.Lawful) {budget : ℕ} (h : Walkable budget v) :
    Spans (skipAt budget) (encodeOwned v) := by
  induction hv generalizing budget <;> obtain _ | budget := budget
  all_goals try exact False.elim h
  case null => exact fun _ => rfl
  case bool b => exact (Spans.width rfl).cons _
  case num n => exact (Spans.num n).cons _
  case str t => exact (Spans.terminated _).cons _
  case bytes b => exact (Spans.terminated b).cons _
  case uuid u => exact (Spans.width u.length_eq).cons _
  case regex r => exact (Spans.regex r).cons _
  case json j hj => exact (Spans.jsonHashed hj h).cons _
  case vector v => exact (Spans.vector v).cons _
  case list items hitems ih =>
    rw [encodeOwned_list]
    exact (Spans.sequence items fun x hx => ⟨ih x hx (h x hx), encodeOwned_head x⟩).cons _
  case set items hasc hitems ih =>
    rw [encodeOwned_set hasc hitems]
    exact (Spans.sequence items fun x hx => ⟨ih x hx (h x hx), encodeOwned_head x⟩).cons _
  case validity v => exact (Spans.width (by simp [descTsKey])).cons _
  case interval iv => exact (Spans.interval iv).cons _
  case geometry g => exact (Spans.width (length_beBytes _ _)).cons _

/-- Where the decoder accepts, the walk finds the same length. -/
theorem skipOne_of_decodeOne {bytes : Bytes} {v : RawValue} {n : ℕ}
    (h : decodeOne bytes = .ok (v, n)) : skipOne bytes = .ok n := by
  obtain ⟨hv, s, rfl, rfl⟩ := decodeAt_sound _ _ _ _ h
  have hdepth : v.depth < maxDepth + 1 := by
    by_contra hdeep
    cases ((decodeAt_answers hv _).fails hdeep s).symm.trans h
  exact skipAt_spans hv (walkable_of_depth le_rfl hdepth) s

end Kyzo

import Kyzo.Value.DataValue

/-!
# The canonical codec

The one order-preserving byte form of a value: the encoder `encodeOwned`, the total decoder
`decode`, and the bare concatenation of a tuple.  Every kind writes its tag byte and a
self-terminating payload.

The decoder's nesting bound is modelled as a budget that counts down: `decodeAt budget` is
`decode_at(_, depth)` with `budget = MAX_DEPTH + 1 - depth`, so an exhausted budget is
`depth > MAX_DEPTH`.  The loops over the items of a container recurse on a bound for the number of
remaining bytes; since every item takes at least one byte, running out of it is running out of
bytes.
-/

namespace Kyzo

open Tag

def structSeqEnd : UInt8 := 0x01

/-! ## Encoding -/

/-- `encode_terminated`: `0x00` becomes `0x00 0xFF`, and `0x00 0x00` closes the string. -/
def encodeTerminated (content : Bytes) : Bytes := escape content

variable (bytes : Bytes)

def fnv1a64 : UInt64 :=
  bytes.foldl (fun h b => (h ^^^ b.toUInt64) * 0x00000100000001B3) 0xcbf29ce484222325

mutual

def encodeJson : RawJson → Bytes
  | .null => [0x05]
  | .bool false => [0x06]
  | .bool true => [0x07]
  | .num n => 0x10 :: n.num.encodeKey
  | .str s => 0x18 :: encodeTerminated (asBytes s)
  | .arr items => 0x48 :: (encodeJsonItems items ++ [structSeqEnd])
  | .obj entries => 0x4C :: (encodeJsonEntries entries ++ [structSeqEnd])

/-- The items of an array, one after the other. -/
def encodeJsonItems : List RawJson → Bytes
  | [] => []
  | item :: items => encodeJson item ++ encodeJsonItems items

/-- The entries of an object: a marked, terminated key and the value. -/
def encodeJsonEntries : List (String × RawJson) → Bytes
  | [] => []
  | (k, v) :: entries =>
    (0x18 :: encodeTerminated (asBytes k)) ++ encodeJson v ++ encodeJsonEntries entries

end

variable {α : Type}

/-- One entry of an object, for any encoding of values: the marked, terminated key and the value. -/
def encodeEntry (enc : α → Bytes) (entry : String × α) : Bytes :=
  (0x18 :: encodeTerminated (asBytes entry.1)) ++ enc entry.2

/-- `asc_ts_key`: sign bit flipped, big-endian. -/
def ascTsKey (ts : Int64) : Bytes := beBytes 8 (ts ^^^ Int64.minValue).toUInt64.toNat

@[simp] lemma length_ascTsKey (t : Int64) : (ascTsKey t).length = 8 := length_beBytes _ _

/-- `desc_ts_key`: the ascending key complemented. -/
def descTsKey (ts : Int64) : Bytes := (ascTsKey ts).map (~~~·)

def tsFromAsc (k : Bytes) : Int64 := (UInt64.ofNat (beNat k)).toInt64 ^^^ Int64.minValue

/-- The lower end of a range. -/
def encodeLo : Lo → Bytes
  | .negUnbounded => [0x01]
  | .at t => 0x02 :: ascTsKey t

/-- The upper end of a range. -/
def encodeHi : Hi → Bytes
  | .posUnbounded => [0x01]
  | .at t => 0x02 :: ascTsKey t

def encodeIntervalBody (iv : Interval) : Bytes :=
  match iv.ends with
  | none => [0x01]
  | some (lo, hi) => 0x02 :: (encodeLo lo ++ encodeHi hi)

mutual

/-- `encode_owned_into`, as the bytes it appends. -/
def encodeOwned : RawValue → Bytes
  | .null => [null.byte]
  | .bool b => [bool.byte, if b then 0x01 else 0x00]
  | .num n => num.byte :: n.encodeKey
  | .str s => str.byte :: encodeTerminated (asBytes s)
  | .bytes b => Tag.bytes.byte :: encodeTerminated b
  | .uuid u => uuid.byte :: u.bytes
  | .regex r => regex.byte :: r.flags.bits :: encodeTerminated (asBytes r.pattern)
  | .json j =>
    json.byte :: (encodeJson j ++ beBytes 8 (fnv1a64 (encodeJson j)).toNat)
  | .vector v =>
    vector.byte :: (beBytes 4 v.dimension ++ v.components.flatMap fun c => c.num.encodeKey)
  | .list items => list.byte :: ((encodeEach items).flatten ++ [structSeqEnd])
  | .set items =>
    set.byte :: ((sortDedup compare (encodeEach items)).flatten ++ [structSeqEnd])
  | .validity v =>
    validity.byte :: (descTsKey v.tsMicros ++ [if v.isAssert then 0x00 else 0x01])
  | .interval iv => interval.byte :: encodeIntervalBody iv
  | .geometry g => geometry.byte :: g.curveKeyBytes

/-- The encodings of the items of a container. -/
def encodeEach : List RawValue → List Bytes
  | [] => []
  | item :: items => encodeOwned item :: encodeEach items

end

/-- `encode_tuple_bare`: canonical concatenation. -/
def encodeTupleBare (vals : List RawValue) : Bytes := vals.flatMap encodeOwned

/-! ## Decoding -/

inductive DecodeError where
  | truncated
  | badTag (b : UInt8)
  | badBool
  | badEscape
  | badUtf8
  | num (e : Num.DecodeError)
  | setNotCanonical
  | trailingBytes
  | tooDeep
  | badRegexFlags
  | badPolarity
  | vectorComponentNotFloat
  | vectorDimensionOverflow
  | badJsonMarker (b : UInt8)
  | jsonNotCanonical
  | jsonHashMismatch
  | jsonNumberNotFinite
  | intervalNotCanonical
  deriving DecidableEq, Repr

def maxDepth : ℕ := 128

/-- A decoder: the value at the front of the bytes and how many bytes it took. -/
abbrev Decoder (α : Type) := Bytes → Except DecodeError (α × ℕ)

def okOr (o : Option α) (e : DecodeError) : Except DecodeError α :=
  match o with
  | some a => .ok a
  | none => .error e

/-- `map_err(DecodeError::Num)`. -/
def decodeNum : Decoder Num := fun bytes =>
  match Num.decodeKey bytes with
  | .ok r => .ok r
  | .error e => .error (.num e)

def decodeTerminated : Decoder Bytes
  | [] => .error .truncated
  | b :: rest =>
    if b = 0x00 then
      match rest with
      | [] => .error .truncated
      | c :: rest =>
        if c = 0x00 then .ok ([], 2)
        else if c = 0xFF then do
          let (content, used) ← decodeTerminated rest
          .ok (0x00 :: content, used + 2)
        else .error .badEscape
    else do
      let (content, used) ← decodeTerminated rest
      .ok (b :: content, used + 1)

/-- `decode_terminated` and then `String::from_utf8`. -/
def decodeString : Decoder String := fun bytes => do
  let (content, used) ← decodeTerminated bytes
  let s ← okOr (fromUtf8 content) .badUtf8
  .ok (s, used)

/-- A loop over items up to the terminator: `follows` is asked of the encodings of neighbours. -/
def decodeItems (follows : Bytes → Bytes → Bool) (item : Decoder α) :
    ℕ → Option Bytes → Decoder (List α)
  | 0, _, _ => .error .truncated
  | bound + 1, prev, body =>
    match body with
    | [] => .error .truncated
    | b :: _ =>
      if b = structSeqEnd then .ok ([], 1)
      else do
        let (x, ilen) ← item body
        let this := body.take ilen
        if prev.all (follows · this) = false then .error .setNotCanonical
        else do
          let (xs, used) ← decodeItems follows item bound (some this) (body.drop ilen)
          .ok (x :: xs, ilen + used)

/-- The loop of `decode_sequence` and of JSON arrays, which asks nothing. -/
def decodeSequence (item : Decoder α) (bound : ℕ) : Decoder (List α) :=
  decodeItems (fun _ _ => true) item bound none

/-- The loop over the elements of a set: the encodings must ascend strictly. -/
def decodeSetItems : Decoder α → ℕ → Option Bytes → Decoder (List α) :=
  decodeItems fun prev this => compare prev this = .lt

/-- The loop over the entries of a JSON object: the keys must ascend strictly. -/
def decodeEntries (value : Decoder α) : ℕ → Option Bytes → Decoder (List (String × α))
  | 0, _, _ => .error .truncated
  | bound + 1, prevKey, body =>
    match body with
    | [] => .error .truncated
    | b :: rest =>
      if b = structSeqEnd then .ok ([], 1)
      else if b = 0x18 then do
        let (keyBytes, klen) ← decodeTerminated rest
        if prevKey.all (compare · keyBytes = .lt) = false then .error .jsonNotCanonical
        else do
          let key ← okOr (fromUtf8 keyBytes) .badUtf8
          let (val, vlen) ← value (rest.drop klen)
          let (entries, used) ←
            decodeEntries value bound (some keyBytes) ((rest.drop klen).drop vlen)
          .ok ((key, val) :: entries, 1 + klen + vlen + used)
      else .error (.badJsonMarker b)

/-- `decode_json`, at nesting budget `MAX_DEPTH + 1 - depth`. -/
def decodeJson : ℕ → Decoder RawJson
  | 0, _ => .error .tooDeep
  | _ + 1, [] => .error .truncated
  | budget + 1, marker :: rest =>
    if marker = 0x05 then .ok (.null, 1)
    else if marker = 0x06 then .ok (.bool false, 1)
    else if marker = 0x07 then .ok (.bool true, 1)
    else if marker = 0x10 then do
      let (n, used) ← decodeNum rest
      let jn ← okOr (JsonNum.new n) .jsonNumberNotFinite
      .ok (.num jn, 1 + used)
    else if marker = 0x18 then do
      let (s, used) ← decodeString rest
      .ok (.str s, 1 + used)
    else if marker = 0x48 then do
      let (items, used) ← decodeSequence (decodeJson budget) rest.length rest
      .ok (.arr items, 1 + used)
    else if marker = 0x4C then do
      let (entries, used) ← decodeEntries (decodeJson budget) rest.length none rest
      match RawJson.objNew entries with
      | .error _ => .error .jsonNotCanonical
      | .ok obj => .ok (.obj obj, 1 + used)
    else .error (.badJsonMarker marker)

/-- The component loop of a vector payload. -/
def decodeComponents : ℕ → Decoder (List F64)
  | 0, _ => .ok ([], 0)
  | count + 1, body => do
    let (n, nused) ← decodeNum body
    let f ← okOr n.asFloat .vectorComponentNotFloat
    let (fs, used) ← decodeComponents count (body.drop nused)
    .ok (f :: fs, nused + used)

/-- A decoded interval end (`End`). -/
inductive IntervalEnd where
  | unbounded
  | at (t : Int64)

def decodeIntervalEnd : Decoder IntervalEnd
  | [] => .error .truncated
  | b :: rest =>
    if b = 0x01 then .ok (.unbounded, 1)
    else if b = 0x02 then
      if rest.length < 8 then .error .truncated
      else .ok (.at (tsFromAsc (rest.take 8)), 9)
    else .error .intervalNotCanonical

/-- The lower end of a decoded range. -/
def IntervalEnd.toLo : IntervalEnd → Lo
  | .unbounded => .negUnbounded
  | .at t => .at t

/-- The upper end of a decoded range. -/
def IntervalEnd.toHi : IntervalEnd → Hi
  | .unbounded => .posUnbounded
  | .at t => .at t

/-- The interval branch of `decode_at`. -/
def decodeInterval : Decoder Interval
  | [] => .error .truncated
  | b :: rest =>
    if b = 0x01 then .ok (Interval.EMPTY, 1)
    else if b = 0x02 then do
      let (lo, loUsed) ← decodeIntervalEnd rest
      let (hi, hiUsed) ← decodeIntervalEnd (rest.drop loUsed)
      let iv := Interval.range lo.toLo hi.toHi
      if iv.isEmpty then .error .intervalNotCanonical
      else .ok (iv, 1 + loUsed + hiUsed)
    else .error .intervalNotCanonical

/-- The validity branch of `decode_at`. -/
def decodeValidity : Decoder ValiditySlot := fun body =>
  if body.length < 8 then .error .truncated
  else
    let ts := tsFromAsc ((body.take 8).map (~~~·))
    match body.drop 8 with
    | [] => .error .truncated
    | p :: _ =>
      if p = 0x00 then .ok (ValiditySlot.fromStored ts true, 9)
      else if p = 0x01 then .ok (ValiditySlot.fromStored ts false, 9)
      else .error .badPolarity

/-- The vector branch of `decode_at`. -/
def decodeVector : Decoder Vector := fun body =>
  if body.length < 4 then .error .truncated
  else do
    let (floats, used) ← decodeComponents (beNat (body.take 4)) (body.drop 4)
    let v ← okOr (Vector.tryNew floats) .vectorDimensionOverflow
    .ok (v, 4 + used)

/-- The regex branch of `decode_at`. -/
def decodeRegex : Decoder RegexSource
  | [] => .error .truncated
  | b :: rest => do
    let flags ← okOr (RegexFlags.fromBits b) .badRegexFlags
    let (pattern, used) ← decodeString rest
    .ok (⟨flags, pattern⟩, 1 + used)

/-- The JSON branch of `decode_at`: the value and its trailing hash. -/
def decodeJsonHashed (budget : ℕ) : Decoder RawJson := fun body => do
  let (j, jused) ← decodeJson budget body
  if body.length < jused + 8 then .error .truncated
  else if (body.drop jused).take 8 ≠ beBytes 8 (fnv1a64 (body.take jused)).toNat then
    .error .jsonHashMismatch
  else .ok (j, jused + 8)

/-- The one-byte payload of a boolean. -/
def decodeBool : Decoder Bool
  | [] => .error .truncated
  | b :: _ =>
    if b = 0x00 then .ok (false, 1) else if b = 0x01 then .ok (true, 1) else .error .badBool

/-- The sixteen bytes of a UUID. -/
def decodeUuid : Decoder UuidWrapper := fun body =>
  if h : body.length < 16 then .error .truncated
  else .ok (⟨body.take 16, by rw [List.length_take]; omega⟩, 16)

/-- The eight bytes of a curve key. -/
def decodeGeometry : Decoder Geometry := fun body =>
  if body.length < 8 then .error .truncated
  else .ok (Geometry.fromCurveKey (beNat (body.take 8)), 8)

/-- The value of a payload behind one more byte. -/
def tagged (mk : α → RawValue) (r : Except DecodeError (α × ℕ)) :
    Except DecodeError (RawValue × ℕ) :=
  match r with
  | .ok (a, used) => .ok (mk a, 1 + used)
  | .error e => .error e

/-- `decode_at`, at nesting budget `MAX_DEPTH + 1 - depth`. -/
def decodeAt : ℕ → Decoder RawValue
  | 0, _ => .error .tooDeep
  | _ + 1, [] => .error .truncated
  | budget + 1, tagByte :: body =>
    match fromByte tagByte with
    | none => .error (.badTag tagByte)
    | some .null => .ok (.null, 1)
    | some .bool => tagged .bool (decodeBool body)
    | some .num => tagged .num (decodeNum body)
    | some .str => tagged .str (decodeString body)
    | some .bytes => tagged .bytes (decodeTerminated body)
    | some .uuid => tagged .uuid (decodeUuid body)
    | some .list => tagged .list (decodeSequence (decodeAt budget) body.length body)
    | some .set =>
      tagged (fun items => .set (sortDedup RawValue.cmp items))
        (decodeSetItems (decodeAt budget) body.length none body)
    | some .regex => tagged .regex (decodeRegex body)
    | some .json => tagged .json (decodeJsonHashed (budget + 1) body)
    | some .vector => tagged .vector (decodeVector body)
    | some .validity => tagged .validity (decodeValidity body)
    | some .interval => tagged .interval (decodeInterval body)
    | some .geometry => tagged .geometry (decodeGeometry body)

def decodeOne : Decoder RawValue := decodeAt (maxDepth + 1)

/-- `decode`: one value and nothing after it. -/
def decode : Except DecodeError RawValue := do
  let (value, used) ← decodeOne bytes
  if used ≠ bytes.length then .error .trailingBytes else .ok value

/-- The loop of `decode_values_all`, with a bound on the number of remaining bytes. -/
def decodeValuesLoop : ℕ → Bytes → Except DecodeError (List RawValue)
  | 0, _ => .ok []
  | bound + 1, bytes =>
    if bytes = [] then .ok []
    else do
      let (v, used) ← decodeOne bytes
      let vs ← decodeValuesLoop bound (bytes.drop used)
      .ok (v :: vs)

def decodeValuesAll : Except DecodeError (List RawValue) :=
  decodeValuesLoop bytes.length bytes

def decodeTupleBare : Except DecodeError (List RawValue) := decodeValuesAll bytes

end Kyzo

import Kyzo.Value.Number

/-!
# Tags and the flat value kinds

The fourteen kinds and their tag bytes, and the kinds whose values hold no other value: UUIDs,
regex sources, validity slots, intervals and vectors.  Each is a structure that carries what its
constructors in the source establish, so that an unlawful value cannot be built: no flag bits
outside the mask, no asserted validity at the reserved tick, no range that denotes the empty
interval, no component outside the float law.
-/

namespace Kyzo

open String Kyzo.Num

/-! ## Tags -/

/-- The value kinds (`Tag`), in cross-type order. -/
inductive Tag where
  | null | bool | num | str | bytes | uuid | regex | json | vector | list | set | validity
  | interval | geometry
  deriving DecidableEq, Repr

namespace Tag

/-- `Tag::byte`: the discriminant. -/
def byte : Tag → UInt8
  | null => 0x05
  | bool => 0x08
  | num => 0x10
  | str => 0x18
  | bytes => 0x20
  | uuid => 0x28
  | regex => 0x30
  | json => 0x38
  | vector => 0x40
  | list => 0x48
  | set => 0x50
  | validity => 0x58
  | interval => 0x60
  | geometry => 0x68

def fromByte (b : UInt8) : Option Tag :=
  match b.toNat with
  | 0x05 => some null
  | 0x08 => some bool
  | 0x10 => some num
  | 0x18 => some str
  | 0x20 => some bytes
  | 0x28 => some uuid
  | 0x30 => some regex
  | 0x38 => some json
  | 0x40 => some vector
  | 0x48 => some list
  | 0x50 => some set
  | 0x58 => some validity
  | 0x60 => some interval
  | 0x68 => some geometry
  | _ => none

/-- The derived order of the tags: discriminants compare. -/
def cmp (a b : Tag) : Ordering := compare a.byte b.byte

@[simp] lemma fromByte_byte (t : Tag) : fromByte t.byte = some t := by
  cases t <;> rfl

lemma byte_of_fromByte {b : UInt8} {t : Tag} (h : fromByte b = some t) : t.byte = b := by
  apply UInt8.toNat_inj.mp
  unfold fromByte at h
  split at h <;> first | (cases h; simp_all [byte]) | cases h

lemma byte_injective {a b : Tag} (h : a.byte = b.byte) : a = b := by
  have hread := congrArg fromByte h
  simpa using hread

lemma one_lt_byte (t : Tag) : (0x01 : UInt8).toNat < t.byte.toNat := by
  cases t <;> decide

end Tag

/-! ## Text -/

def asBytes (s : String) : Bytes := s.toByteArray.data.toList

def fromUtf8 (bs : Bytes) : Option String := fromUTF8? ⟨bs.toArray⟩

@[simp] lemma fromUtf8_asBytes (s : String) : fromUtf8 (asBytes s) = some s := by
  change fromUTF8? s.toByteArray = some s
  rw [fromUTF8?, dif_pos s.isValidUTF8]
  rfl

lemma asBytes_of_fromUtf8 {bs : Bytes} {s : String} (h : fromUtf8 bs = some s) :
    asBytes s = bs := by
  unfold fromUtf8 fromUTF8? at h
  split at h
  · cases h
    simp [asBytes, fromUTF8]
  · cases h

/-! ## UUIDs -/

/-- A UUID (`UuidWrapper`): sixteen bytes. -/
structure UuidWrapper where
  bytes : Bytes
  /-- There are sixteen of them. -/
  length_eq : bytes.length = 16

namespace UuidWrapper

/-- Order and identity are the bytes. -/
def cmp (a b : UuidWrapper) : Ordering := compare a.bytes b.bytes

end UuidWrapper

/-! ## Regex sources -/

/-- The flag bits of a regex (`RegexFlags`). -/
structure RegexFlags where
  bits : UInt8
  /-- Nothing outside `MASK = 0x3F`. -/
  masked : bits &&& ~~~0x3F = 0

def RegexFlags.fromBits (bits : UInt8) : Option RegexFlags :=
  if h : bits &&& ~~~0x3F = 0 then some ⟨bits, h⟩ else none

/-- A regex as stored (`RegexSource`): flags and pattern text. -/
structure RegexSource where
  flags : RegexFlags
  pattern : String

/-- Storage order of regex sources: flags, then pattern bytes. -/
def RegexSource.cmp (a b : RegexSource) : Ordering :=
  (compare a.flags.bits b.flags.bits).then (compare (asBytes a.pattern) (asBytes b.pattern))

/-! ## Validity slots -/

/-- A validity (`Validity`): an instant and its assert flag.  The reserved terminal tick cannot be
asserted. -/
structure Validity where
  /-- The instant in microseconds. -/
  tsMicros : Int64
  isAssert : Bool
  /-- What `Validity::new` refuses. -/
  representable : ¬ (isAssert = true ∧ tsMicros = Int64.maxValue)

/-- A seek bound (`ValiditySeekBound`), minted only for a pair that `Validity::new` refuses. -/
structure ValiditySeekBound where
  /-- The instant in microseconds. -/
  tsMicros : Int64
  isAssert : Bool
  /-- The pair is the asserted reserved tick. -/
  reserved : isAssert = true ∧ tsMicros = Int64.maxValue

/-- The payload of a validity value (`ValiditySlot`). -/
inductive ValiditySlot where
  | value (v : Validity)
  | seek (s : ValiditySeekBound)

namespace ValiditySlot

def fromStored (ts : Int64) (isAssert : Bool) : ValiditySlot :=
  if h : isAssert = true ∧ ts = Int64.maxValue then .seek ⟨ts, isAssert, h⟩
  else .value ⟨ts, isAssert, h⟩

def tsMicros : ValiditySlot → Int64
  | .value v => v.tsMicros
  | .seek s => s.tsMicros

def isAssert : ValiditySlot → Bool
  | .value v => v.isAssert
  | .seek s => s.isAssert

/-- `impl Ord for ValiditySlot`: later instants first, then assert before retract. -/
def cmp (a b : ValiditySlot) : Ordering :=
  (compare b.tsMicros a.tsMicros).then (compare b.isAssert a.isAssert)

@[simp] lemma tsMicros_fromStored (ts : Int64) (a : Bool) : (fromStored ts a).tsMicros = ts := by
  unfold fromStored
  split <;> rfl

@[simp] lemma isAssert_fromStored (ts : Int64) (a : Bool) : (fromStored ts a).isAssert = a := by
  unfold fromStored
  split <;> rfl

@[simp] lemma fromStored_eta (s : ValiditySlot) : fromStored s.tsMicros s.isAssert = s := by
  cases s with
  | value v => exact dif_neg v.representable
  | seek s => exact dif_pos s.reserved

end ValiditySlot

/-! ## Intervals -/

/-- A canonical lower end (`Lo`). -/
inductive Lo where
  | negUnbounded
  | at (t : Int64)
  deriving DecidableEq, Repr

/-- A canonical upper end (`Hi`). -/
inductive Hi where
  | at (t : Int64)
  | posUnbounded
  deriving DecidableEq, Repr

/-- The two forms of an interval (`Form`). -/
inductive Interval.Form where
  | empty
  | range (lo : Lo) (hi : Hi)
  deriving DecidableEq, Repr

/-- The ends denote the empty set: a finite start above a finite end. -/
def Interval.Inverted (lo : Lo) (hi : Hi) : Prop :=
  match lo, hi with
  | .at l, .at h => h < l
  | _, _ => False

instance : (lo : Lo) → (hi : Hi) → Decidable (Interval.Inverted lo hi)
  | .at l, .at h => inferInstanceAs (Decidable (h < l))
  | .at _, .posUnbounded => isFalse id
  | .negUnbounded, .at _ => isFalse id
  | .negUnbounded, .posUnbounded => isFalse id

/-- The closed normal form: a written range is not empty. -/
def Interval.Form.Lawful : Interval.Form → Prop
  | .empty => True
  | .range lo hi => ¬ Interval.Inverted lo hi

/-- An interval in closed normal form (`Interval`). -/
structure Interval where
  form : Interval.Form
  lawful : form.Lawful

namespace Interval

@[ext] lemma ext {a b : Interval} (h : a.form = b.form) : a = b := by
  cases a
  cases b
  simpa using h

instance : DecidableEq Interval := fun a b =>
  decidable_of_iff (a.form = b.form) ⟨ext, fun h => h ▸ rfl⟩

def EMPTY : Interval := ⟨.empty, trivial⟩

/-- `Interval::range`: a pair of ends that denotes the empty set collapses. -/
def range (lo : Lo) (hi : Hi) : Interval :=
  if h : Inverted lo hi then EMPTY else ⟨.range lo hi, h⟩

def isEmpty (iv : Interval) : Bool :=
  match iv.form with
  | .empty => true
  | .range _ _ => false

def ends (iv : Interval) : Option (Lo × Hi) :=
  match iv.form with
  | .empty => none
  | .range lo hi => some (lo, hi)

/-- The marker and instant by which `interval_storage_cmp` compares a lower end. -/
def loKey : Lo → UInt8 × Int64
  | .negUnbounded => (0x01, 0)
  | .at t => (0x02, t)

/-- The marker and instant by which `interval_storage_cmp` compares an upper end. -/
def hiKey : Hi → UInt8 × Int64
  | .posUnbounded => (0x01, 0)
  | .at t => (0x02, t)

/-- The comparison key of `interval_storage_cmp`. -/
def key (iv : Interval) : UInt8 × UInt8 × Int64 × UInt8 × Int64 :=
  match iv.ends with
  | none => (0x01, 0, 0, 0, 0)
  | some (lo, hi) => (0x02, (loKey lo).1, (loKey lo).2, (hiKey hi).1, (hiKey hi).2)

/-- `interval_storage_cmp`. -/
def cmp (a b : Interval) : Ordering :=
  let (af, alm, alt, ahm, aht) := a.key
  let (bf, blm, blt, bhm, bht) := b.key
  ((((compare af bf).then (compare alm blm)).then (compare alt blt)).then
    (compare ahm bhm)).then (compare aht bht)

end Interval

/-! ## Vectors -/

/-- A vector component (`VectorComponent`): a float under the float law. -/
structure VectorComponent where
  value : F64
  /-- The float law. -/
  canonical : value.Canonical

namespace VectorComponent

@[ext] lemma ext {a b : VectorComponent} (h : a.value = b.value) : a = b := by
  cases a
  cases b
  simpa using h

/-- `VectorComponent::admit`. -/
def admitComponent (raw : F64) : VectorComponent :=
  ⟨normalizeFloat raw, normalizeFloat_canonical raw⟩

variable (c : VectorComponent)

/-- The component as a number. -/
def num : Num := float c.value

lemma admitComponent_value : admitComponent c.value = c := by
  apply ext
  exact normalizeFloat_of_canonical c.canonical

lemma asFloat_num : c.num.asFloat = some c.value := by
  simp [num, asFloat, float, normalizeFloat_of_canonical c.canonical]

end VectorComponent

/-- A vector (`Vector`): components whose count fits the 32-bit dimension. -/
structure Vector where
  components : List VectorComponent
  /-- The dimension proof of `VectorDimension::try_from_len`. -/
  length_lt : components.length < 2 ^ 32

namespace Vector

def tryNew (raw : List F64) : Option Vector :=
  if h : (raw.map VectorComponent.admitComponent).length < 2 ^ 32 then
    some ⟨raw.map VectorComponent.admitComponent, h⟩
  else none

def dimension (v : Vector) : ℕ := v.components.length

end Vector

end Kyzo

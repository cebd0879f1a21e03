import Kyzo.Lib.Sorted
import Kyzo.Value.Geometry
import Kyzo.Value.Kinds

/-!
# Data values and their storage order

The fourteen kinds of `DataValue`, with JSON documents, lists and sets nested without bound.  The
raw trees `RawJson` and `RawValue` are the shapes of the source's enumerations; `Lawful` says what
their private constructors establish (object keys and set elements strictly ascending, all the
way down), and `DataValue` is the type of lawful trees.

`RawValue.cmp` is `impl Ord for DataValue`: tags first, then the order of the kind.
-/

namespace Kyzo

/-! ## JSON -/

/-- A JSON number (`JsonNum`): a number that is finite. -/
structure JsonNum where
  num : Num
  /-- What `JsonNum::new` refuses. -/
  finite : ∀ f, num.asFloat = some f → f.isFinite = true

namespace JsonNum

def new (n : Num) : Option JsonNum :=
  match h : n.asFloat with
  | none => some ⟨n, fun f hf => by rw [h] at hf; cases hf⟩
  | some f =>
    if hfin : f.isFinite = true then some ⟨n, fun g hg => by rw [h] at hg; cases hg; exact hfin⟩
    else none

lemma new_num (j : JsonNum) : new j.num = some j := by
  unfold new
  split
  · rfl
  · rename_i f hf
    rw [dif_pos (j.finite f hf)]

lemma num_of_new {n : Num} {j : JsonNum} (h : new n = some j) : j.num = n := by
  unfold new at h
  split at h
  · cases h
    rfl
  · split at h
    · cases h
      rfl
    · cases h

end JsonNum

/-- A JSON tree (`Json`), its objects as lists of entries. -/
inductive RawJson where
  | null
  | bool (b : Bool)
  | num (n : JsonNum)
  | str (s : String)
  | arr (items : List RawJson)
  | obj (entries : List (String × RawJson))

namespace RawJson

/-- Keys compare by their bytes. -/
def keyCmp (a b : String × RawJson) : Ordering := compare (asBytes a.1) (asBytes b.1)

/-- Every object of the tree is what `JsonObj::new` builds: keys strictly ascending. -/
inductive Lawful : RawJson → Prop
  | null : Lawful .null
  | bool (b : Bool) : Lawful (.bool b)
  | num (n : JsonNum) : Lawful (.num n)
  | str (s : String) : Lawful (.str s)
  | arr {items : List RawJson} (hitems : ∀ j ∈ items, Lawful j) : Lawful (.arr items)
  | obj {entries : List (String × RawJson)} (hkeys : Ascending keyCmp entries)
      (hvals : ∀ e ∈ entries, Lawful e.2) : Lawful (.obj entries)

/-- The first key that its successor repeats: the `windows(2)` loop of `JsonObj::new`. -/
def firstDuplicate : List (String × RawJson) → Option String
  | a :: b :: rest => if a.1 = b.1 then some a.1 else firstDuplicate (b :: rest)
  | _ => none

/-- `JsonObj::new`: sort by key bytes, refuse a repeated key. -/
def objNew (entries : List (String × RawJson)) : Except String (List (String × RawJson)) :=
  let sorted := entries.insertionSort fun a b => (keyCmp a b).isLE = true
  match firstDuplicate sorted with
  | some k => .error k
  | none => .ok sorted

/-- Ascending entries pass `JsonObj::new` unchanged. -/
theorem objNew_of_ascending {entries : List (String × RawJson)} (h : Ascending keyCmp entries) :
    objNew entries = .ok entries := by
  have hle : entries.Pairwise fun a b => (keyCmp a b).isLE = true := by
    refine h.imp ?_
    intro a b hab
    rw [hab]
    rfl
  have hdup : ∀ l : List (String × RawJson), Ascending keyCmp l → firstDuplicate l = none := by
    intro l
    induction l with
    | nil => exact fun _ => rfl
    | cons a l ih =>
      intro hl
      cases l with
      | nil => rfl
      | cons b l =>
        obtain ⟨ha, htail⟩ := List.pairwise_cons.mp hl
        have hne : a.1 ≠ b.1 := by
          intro heq
          have hlt := ha b (by simp)
          rw [keyCmp, heq, Std.ReflOrd.compare_self] at hlt
          cases hlt
        rw [firstDuplicate, if_neg hne]
        exact ih htail
  simp [objNew, hle.insertionSort_eq, hdup entries h]

/-- The marker of a JSON value (`rank` of `json_storage_cmp`). -/
def rank : RawJson → UInt8
  | .null => 0x05
  | .bool false => 0x06
  | .bool true => 0x07
  | .num _ => 0x10
  | .str _ => 0x18
  | .arr _ => 0x48
  | .obj _ => 0x4C

mutual

/-- `json_storage_cmp`: markers first, then the order of the kind. -/
def cmp (a b : RawJson) : Ordering :=
  if compare a.rank b.rank ≠ .eq then compare a.rank b.rank
  else
    match a, b with
    | .num x, .num y => x.num.cmp y.num
    | .str x, .str y => compare (asBytes x) (asBytes y)
    | .arr x, .arr y => (cmpItems x y).then (compare x.length y.length)
    | .obj x, .obj y => (cmpEntries x y).then (compare x.length y.length)
    | _, _ => .eq

/-- The element loop of two arrays. -/
def cmpItems : List RawJson → List RawJson → Ordering
  | i :: x, j :: y =>
    match cmp i j with
    | .eq => cmpItems x y
    | c => c
  | _, _ => .eq

/-- The entry loop of two objects: key bytes, then value. -/
def cmpEntries : List (String × RawJson) → List (String × RawJson) → Ordering
  | (ka, va) :: x, (kb, vb) :: y =>
    match (compare (asBytes ka) (asBytes kb)).then (cmp va vb) with
    | .eq => cmpEntries x y
    | c => c
  | _, _ => .eq

end

lemma cmpItems_eq (x y : List RawJson) : cmpItems x y = zipCmp cmp x y := by
  induction x generalizing y with
  | nil => cases y <;> simp [cmpItems, zipCmp]
  | cons i x ih =>
    cases y with
    | nil => simp [cmpItems, zipCmp]
    | cons j y =>
      cases hc : cmp i j <;> simp [cmpItems, zipCmp, hc, ih]

/-- Entries compare by key bytes, then by value. -/
def entryCmp (a b : String × RawJson) : Ordering := (keyCmp a b).then (cmp a.2 b.2)

lemma cmpEntries_eq (x y : List (String × RawJson)) : cmpEntries x y = zipCmp entryCmp x y := by
  induction x generalizing y with
  | nil => cases y <;> simp [cmpEntries, zipCmp]
  | cons a x ih =>
    cases y with
    | nil => simp [cmpEntries, zipCmp]
    | cons b y =>
      cases hc : (compare (asBytes a.1) (asBytes b.1)).then (cmp a.2 b.2) <;>
        simp [cmpEntries, zipCmp, hc, ih, entryCmp, keyCmp]

lemma cmp_of_rank_ne {a b : RawJson} (h : a.rank ≠ b.rank) : cmp a b = compare a.rank b.rank := by
  have hne : compare a.rank b.rank ≠ .eq := fun heq => h (Std.LawfulEqOrd.eq_of_compare heq)
  unfold cmp
  rw [if_pos hne]

lemma cmp_arr (x y : List RawJson) : cmp (.arr x) (.arr y) = List.compareLex cmp x y := by
  rw [cmp, cmpItems_eq, zipCmp_then_length]
  simp [rank]

lemma cmp_obj (x y : List (String × RawJson)) :
    cmp (.obj x) (.obj y) = List.compareLex entryCmp x y := by
  rw [cmp, cmpEntries_eq, zipCmp_then_length]
  simp [rank]

end RawJson

/-! ## Data values -/

/-- A value tree (`DataValue`), its sets as lists of elements in iteration order. -/
inductive RawValue where
  | null
  | bool (b : Bool)
  | num (n : Num)
  | str (s : String)
  | bytes (b : Bytes)
  | uuid (u : UuidWrapper)
  | regex (r : RegexSource)
  | json (j : RawJson)
  | vector (v : Vector)
  | list (items : List RawValue)
  | set (items : List RawValue)
  | validity (v : ValiditySlot)
  | interval (iv : Interval)
  | geometry (g : Geometry)

namespace RawValue

def tag : RawValue → Tag
  | .null => .null
  | .bool _ => .bool
  | .num _ => .num
  | .str _ => .str
  | .bytes _ => .bytes
  | .uuid _ => .uuid
  | .regex _ => .regex
  | .json _ => .json
  | .vector _ => .vector
  | .list _ => .list
  | .set _ => .set
  | .validity _ => .validity
  | .interval _ => .interval
  | .geometry _ => .geometry

mutual

/-- `impl Ord for DataValue`: tags first, then the order of the kind. -/
def cmp (a b : RawValue) : Ordering :=
  if a.tag.cmp b.tag ≠ .eq then a.tag.cmp b.tag
  else
    match a, b with
    | .null, .null => .eq
    | .bool a, .bool b => compare a b
    | .num a, .num b => a.cmp b
    | .str a, .str b => compare (asBytes a) (asBytes b)
    | .bytes a, .bytes b => compare a b
    | .uuid a, .uuid b => a.cmp b
    | .regex a, .regex b => a.cmp b
    | .json a, .json b => RawJson.cmp a b
    | .vector a, .vector b =>
      (compare a.dimension b.dimension).then
        (zipCmp (fun x y => x.num.cmp y.num) a.components b.components)
    | .list a, .list b => (cmpItems a b).then (compare a.length b.length)
    | .set a, .set b => (cmpItems a b).then (compare a.length b.length)
    | .validity a, .validity b => a.cmp b
    | .interval a, .interval b => a.cmp b
    | .geometry a, .geometry b => a.cmp b
    | _, _ => .eq

/-- The element loop of two sequences. -/
def cmpItems : List RawValue → List RawValue → Ordering
  | x :: a, y :: b =>
    match cmp x y with
    | .eq => cmpItems a b
    | c => c
  | _, _ => .eq

end

/-- The tree is one its constructors can build: every JSON document lawful, and every set strictly
ascending under the storage order, as a `BTreeSet` iterates. -/
inductive Lawful : RawValue → Prop
  | null : Lawful .null
  | bool (b : Bool) : Lawful (.bool b)
  | num (n : Num) : Lawful (.num n)
  | str (s : String) : Lawful (.str s)
  | bytes (b : Bytes) : Lawful (.bytes b)
  | uuid (u : UuidWrapper) : Lawful (.uuid u)
  | regex (r : RegexSource) : Lawful (.regex r)
  | json {j : RawJson} (hj : j.Lawful) : Lawful (.json j)
  | vector (v : Vector) : Lawful (.vector v)
  | list {items : List RawValue} (hitems : ∀ v ∈ items, Lawful v) : Lawful (.list items)
  | set {items : List RawValue} (hasc : Ascending cmp items) (hitems : ∀ v ∈ items, Lawful v) :
      Lawful (.set items)
  | validity (v : ValiditySlot) : Lawful (.validity v)
  | interval (iv : Interval) : Lawful (.interval iv)
  | geometry (g : Geometry) : Lawful (.geometry g)

variable (a b : List RawValue)

lemma cmpItems_eq : cmpItems a b = zipCmp cmp a b := by
  induction a generalizing b with
  | nil => cases b <;> simp [cmpItems, zipCmp]
  | cons x a ih =>
    cases b with
    | nil => simp [cmpItems, zipCmp]
    | cons y b =>
      cases hc : cmp x y <;> simp [cmpItems, zipCmp, hc, ih]

lemma cmp_of_tag_ne {a b : RawValue} (h : a.tag ≠ b.tag) :
    cmp a b = compare a.tag.byte b.tag.byte := by
  have hne : a.tag.cmp b.tag ≠ .eq := fun heq =>
    h (Tag.byte_injective (Std.LawfulEqOrd.eq_of_compare heq))
  unfold cmp
  rw [if_pos hne]
  rfl

lemma cmp_list : cmp (.list a) (.list b) = List.compareLex cmp a b := by
  rw [cmp, cmpItems_eq, zipCmp_then_length]
  simp [tag, Tag.cmp]

lemma cmp_set : cmp (.set a) (.set b) = List.compareLex cmp a b := by
  rw [cmp, cmpItems_eq, zipCmp_then_length]
  simp [tag, Tag.cmp]

end RawValue

/-- A data value (`DataValue`). -/
abbrev DataValue := {v : RawValue // v.Lawful}

/-- `impl Ord for DataValue`. -/
instance : Ord DataValue := ⟨fun a b => RawValue.cmp a.val b.val⟩

end Kyzo

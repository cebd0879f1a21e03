import Std.Data.TreeSet.Lemmas
import Kyzo.Value.CanonicalRoundTrip

/-!
# Building and reading data values

The constructors of values whose payloads are lawful by construction, and the accessors the engine
reads values with.  A set payload is a `BTreeSet` of values, and a list or a set can be read as one.
-/

namespace Kyzo

open Subtype

namespace RawValue

variable {items : List RawValue}

lemma Lawful.of_mem_list (h : Lawful (.list items)) : ∀ v ∈ items, Lawful v := by
  cases h
  assumption

lemma Lawful.of_mem_set (h : Lawful (.set items)) : ∀ v ∈ items, Lawful v := by
  cases h
  assumption

end RawValue

namespace DataValue

def null : DataValue := ⟨.null, .null⟩

def bool (b : Bool) : DataValue := ⟨.bool b, .bool b⟩

def num (n : Num) : DataValue := ⟨.num n, .num n⟩

def str (s : String) : DataValue := ⟨.str s, .str s⟩

def bytes (b : Bytes) : DataValue := ⟨.bytes b, .bytes b⟩

lemma lawful_of_mem_map {items : List DataValue} : ∀ v ∈ items.map val, RawValue.Lawful v := by
  intro v hv
  obtain ⟨w, -, rfl⟩ := List.mem_map.mp hv
  exact w.property

def list (items : List DataValue) : DataValue :=
  ⟨.list (items.map val), .list lawful_of_mem_map⟩

def set (s : Std.TreeSet DataValue compare) : DataValue :=
  ⟨.set (s.toList.map val), .set (List.pairwise_map.mpr s.ordered_toList) lawful_of_mem_map⟩

/-- The elements of a list or of a set, in iteration order. -/
def elements : DataValue → Option (List DataValue)
  | ⟨.list items, h⟩ => some (items.pmap mk h.of_mem_list)
  | ⟨.set items, h⟩ => some (items.pmap mk h.of_mem_set)
  | _ => none

/-- The elements of a list or of a set, collected into a `BTreeSet`. -/
def collectSet (v : DataValue) : Option (Std.TreeSet DataValue compare) :=
  v.elements.map fun items => Std.TreeSet.ofList items compare

def getFloat : DataValue → Option F64
  | ⟨.num n, _⟩ =>
    match n.asFloat with
    | some f => some f
    | none => n.asInt.map fun i => F64.ofInt i.toInt
  | _ => none

def getBool : DataValue → Option Bool
  | ⟨.bool b, _⟩ => some b
  | _ => none

lemma eq_bool_of_getBool {v : DataValue} {b : Bool} (h : v.getBool = some b) : v = .bool b := by
  obtain ⟨v, hv⟩ := v
  cases v <;> cases h
  rfl

def getStr : DataValue → Option String
  | ⟨.str s, _⟩ => some s
  | _ => none

def getSlice : DataValue → Option (List DataValue)
  | ⟨.list items, h⟩ => some (items.pmap mk h.of_mem_list)
  | _ => none

lemma pmap_map_val (items : List DataValue) (h : ∀ v ∈ items.map val, RawValue.Lawful v) :
    (items.map val).pmap mk h = items := by
  induction items with
  | nil => rfl
  | cons v items ih =>
    exact congrArg (v :: ·) (ih _)

@[simp] lemma elements_set (s : Std.TreeSet DataValue compare) :
    (set s).elements = some s.toList := by
  simp only [set, elements, pmap_map_val]

lemma set_congr {s t : Std.TreeSet DataValue compare} (h : ∀ v, v ∈ s ↔ v ∈ t) : set s = set t := by
  have hlist : s.toList = t.toList :=
    Std.TreeSet.equiv_iff_toList_eq.mp (Std.TreeSet.Equiv.of_forall_mem_iff h)
  simp [set, hlist]

end DataValue

end Kyzo

import Kyzo.Lib.ByteOrder

/-!
# Identities and ordinals of a store

The fixed-width names that the durable records of a store carry: digests, the identity of the store,
its fence epochs and incarnations, and the two ordinals of the commit door.  Raw values are 64-bit,
and a successor is refused at the top of the range.
-/

namespace Kyzo

/-- A 32-byte array. -/
def Bytes32 : Type := { b : Bytes // b.length = 32 }

instance : DecidableEq Bytes32 := inferInstanceAs (DecidableEq { b : Bytes // b.length = 32 })

namespace Bytes32

/-- The bytes of the array. -/
def bytes (b : Bytes32) : Bytes := b.val

/-- An array of one byte repeated. -/
def replicate (b : UInt8) : Bytes32 := ⟨List.replicate 32 b, List.length_replicate⟩

/-- An array by its bytes as one number. -/
def ofNat (n : ℕ) : Bytes32 := ⟨beBytes 32 n, length_beBytes 32 n⟩

@[simp] lemma length_bytes (b : Bytes32) : b.bytes.length = 32 := b.property

lemma bytes_injective {a b : Bytes32} (h : a.bytes = b.bytes) : a = b := Subtype.ext h

end Bytes32

/-- A hash function does not collide on these inputs. -/
def CollisionFree (sha : Bytes → Bytes32) (inputs : List Bytes) : Prop :=
  ∀ a ∈ inputs, ∀ b ∈ inputs, sha a = sha b → a = b

instance (sha : Bytes → Bytes32) (inputs : List Bytes) :
    Decidable (CollisionFree sha inputs) :=
  inferInstanceAs (Decidable (∀ a ∈ inputs, ∀ b ∈ inputs, sha a = sha b → a = b))

/-- The bytes of a byte-string literal. -/
def ascii (s : String) : Bytes := s.toList.map fun c => UInt8.ofNat c.toNat

/-- `u64::to_be_bytes`. -/
def u64Bytes (n : UInt64) : Bytes := beBytes 8 n.toNat

@[simp] lemma length_u64Bytes (n : UInt64) : (u64Bytes n).length = 8 := length_beBytes 8 _

lemma u64Bytes_injective {m n : UInt64} (h : u64Bytes m = u64Bytes n) : m = n := by
  have hfit : ∀ u : UInt64, u.toNat < 256 ^ 8 := fun u => UInt64.toNat_lt u
  have hnat := congrArg beNat h
  rw [u64Bytes, u64Bytes, beNat_beBytes, beNat_beBytes, Nat.mod_eq_of_lt (hfit m),
    Nat.mod_eq_of_lt (hfit n)] at hnat
  exact UInt64.toNat_inj.mp hnat

structure StoreId where
  digest : Bytes32
  deriving DecidableEq

structure FenceEpoch where
  raw : UInt64
  deriving DecidableEq

structure OpenOrdinal where
  raw : UInt64
  deriving DecidableEq

structure Entropy where
  bytes : Bytes32
  deriving DecidableEq

structure IncarnationId where
  openOrdinal : OpenOrdinal
  entropy : Entropy
  deriving DecidableEq

/-- `u64::checked_add(1)`. -/
def checkedSucc (n : UInt64) : Option UInt64 := if n.toNat + 1 < 2 ^ 64 then some (n + 1) else none

lemma checkedSucc_eq_some {m n : UInt64} : checkedSucc m = some n ↔ n.toNat = m.toNat + 1 := by
  rw [checkedSucc]
  constructor
  · intro h
    split_ifs at h with hlt
    cases h
    exact Nat.mod_eq_of_lt hlt
  · intro h
    have hlt : m.toNat + 1 < 2 ^ 64 := h ▸ UInt64.toNat_lt n
    rw [if_pos hlt]
    refine congrArg some (UInt64.toNat_inj.mp ?_)
    rw [h]
    exact Nat.mod_eq_of_lt hlt

lemma isSome_checkedSucc (n : UInt64) : (checkedSucc n).isSome = true ↔ n.toNat + 1 < 2 ^ 64 := by
  rw [checkedSucc]
  split_ifs with hlt
  · exact iff_of_true rfl hlt
  · exact iff_of_false (by simp) hlt

structure IntentOrdinal where
  raw : UInt64
  deriving DecidableEq

structure CommitOrdinal where
  raw : UInt64
  deriving DecidableEq

end Kyzo

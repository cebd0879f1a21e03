import Kyzo.Lib.MerkleTree
import Kyzo.Store.Identity

/-!
# The Merkle root of a state

Leaf, node and empty hashes with their domain tags, the streaming accumulator of the tree hash, and
the root over an ordered scan of entries.
-/

namespace Kyzo

open List Nat

abbrev MerkleHash := Bytes32

/-- A byte slice, whose length fits 64 bits. -/
structure Slice where
  bytes : Bytes
  fits : bytes.length < 2 ^ 64

/-- The `LEAF_TAG` byte. -/
def leafTag : UInt8 := 0x00

/-- The `NODE_TAG` byte. -/
def nodeTag : UInt8 := 0x01

/-- The `EMPTY_TAG` byte. -/
def emptyTag : UInt8 := 0x02

/-- What each kind of hash is taken of. -/
def merklePreimage : HashInput (Slice × Slice) MerkleHash → Bytes
  | .empty => [emptyTag]
  | .leaf (key, value) =>
    [leafTag] ++ u64Bytes (UInt64.ofNat key.bytes.length) ++ key.bytes ++ value.bytes
  | .node left right => [nodeTag] ++ left.bytes ++ right.bytes

variable (sha : Bytes → Bytes32)

def leafHash (key value : Slice) : MerkleHash := sha (merklePreimage (.leaf (key, value)))

def nodeHash (left right : MerkleHash) : MerkleHash := sha (merklePreimage (.node left right))

def emptyHash : MerkleHash := sha (merklePreimage .empty)

/-! ## The accumulator -/

/-- `MerkleAccumulator`.  The head of the list is the top of the stack. -/
structure MerkleAccumulator where
  stack : List (ℕ × MerkleHash)

namespace MerkleAccumulator

def new : MerkleAccumulator := ⟨[]⟩

/-- The loop of `push_leaf`: merges while the top has as many leaves as the node in hand. -/
def mergeTop : List (ℕ × MerkleHash) → ℕ × MerkleHash → List (ℕ × MerkleHash)
  | [], node => [node]
  | (topSize, left) :: stack, node =>
    if topSize ≠ node.1 then node :: (topSize, left) :: stack
    else mergeTop stack (node.1 * 2, nodeHash sha left node.2)

def pushLeaf (acc : MerkleAccumulator) (hash : MerkleHash) : MerkleAccumulator :=
  ⟨mergeTop sha acc.stack (1, hash)⟩

def finalize (acc : MerkleAccumulator) : MerkleHash :=
  match acc.stack with
  | [] => emptyHash sha
  | (_, hash) :: peaks => peaks.foldl (fun hash peak => nodeHash sha peak.2 hash) hash

end MerkleAccumulator

def recursiveMth (leaves : List MerkleHash) : MerkleHash :=
  mth (emptyHash sha) (nodeHash sha) leaves

/-! ## The root over a scan -/

structure NonZeroU64 where
  val : UInt64
  ne_zero : val ≠ 0

/-- Why a root is refused: the scan failed, or it ran over the budget. -/
inductive RootRefuse (ε : Type) where
  | scan (e : ε)
  | merkleScanExceeded (ceiling : UInt64)

variable {ε : Type}

/-- The loop of `root_over`. -/
def rootOverFrom (ceiling : UInt64) :
    ℕ → MerkleAccumulator → List (Except ε (Slice × Slice)) → Except (RootRefuse ε) MerkleHash
  | _, acc, [] => .ok (acc.finalize sha)
  | _, _, .error e :: _ => .error (.scan e)
  | spent, acc, .ok (key, value) :: entries =>
    if spent + 1 > ceiling.toNat then .error (.merkleScanExceeded ceiling)
    else rootOverFrom ceiling (spent + 1) (acc.pushLeaf sha (leafHash sha key value)) entries

def rootOver (entries : List (Except ε (Slice × Slice))) (budget : NonZeroU64) :
    Except (RootRefuse ε) MerkleHash :=
  rootOverFrom sha budget.val 0 .new entries

/-! ## The accumulator computes the tree hash -/

variable {acc : MerkleAccumulator}

namespace MerkleAccumulator

/-- The accumulator holds these leaves. -/
def Holds (acc : MerkleAccumulator) (leaves : List MerkleHash) : Prop :=
  Peaks (emptyHash sha) (nodeHash sha) 0 acc.stack leaves

lemma holds_new : new.Holds sha [] := .nil

lemma peaks_mergeTop {k : ℕ} {stack : List (ℕ × MerkleHash)} {left chunk : List MerkleHash}
    (h : Peaks (emptyHash sha) (nodeHash sha) k stack left) (hchunk : chunk.length = 2 ^ k) :
    Peaks (emptyHash sha) (nodeHash sha) 0
      (mergeTop sha stack (2 ^ k, recursiveMth sha chunk)) (left ++ chunk) := by
  induction h generalizing chunk with
  | @nil k => exact .cons (zero_le k) hchunk .nil
  | @cons low k stack left top hlow htop hstack ih =>
    rw [mergeTop]
    split_ifs with hsize
    · -- The top is larger, so the chunk is a peak of its own.
      have hlt : low < k := by
        refine lt_of_le_of_ne hlow fun heq => hsize ?_
        rw [heq]
      exact .cons (zero_le low) hchunk (.cons hlt htop hstack)
    · obtain rfl : k = low := Nat.pow_right_injective (le_refl 2) (not_not.mp hsize)
      have hnode : nodeHash sha (mth (emptyHash sha) (nodeHash sha) top)
          (recursiveMth sha chunk) = recursiveMth sha (top ++ chunk) :=
        (mth_append htop (ne_nil_of_length_pos (hchunk ▸ Nat.two_pow_pos k)) hchunk.le).symm
      have hlen : (top ++ chunk).length = 2 ^ (k + 1) := by
        rw [length_append, htop, hchunk, pow_succ, mul_two]
      rw [hnode, append_assoc]
      exact ih hlen

variable {leaves : List MerkleHash}

/-- **Step.**  A leaf pushed is the next leaf held. -/
theorem Holds.pushLeaf (h : acc.Holds sha leaves) (hash : MerkleHash) :
    (acc.pushLeaf sha hash).Holds sha (leaves ++ [hash]) := by
  have hleaf : recursiveMth sha [hash] = hash := by rw [recursiveMth, mth]
  have hpush := peaks_mergeTop sha h (rfl : [hash].length = 2 ^ 0)
  rwa [hleaf] at hpush

/-- **Run.**  Leaves pushed one by one are all held. -/
theorem Holds.foldl_pushLeaf {held : List MerkleHash}
    (h : acc.Holds sha held) (leaves : List MerkleHash) :
    (leaves.foldl (MerkleAccumulator.pushLeaf sha) acc).Holds sha (held ++ leaves) := by
  induction leaves generalizing acc held with
  | nil => rwa [append_nil]
  | cons hash leaves ih =>
    rw [append_cons]
    exact ih (h.pushLeaf sha hash)

lemma Holds.finalize_eq
    (h : acc.Holds sha leaves) : acc.finalize sha = recursiveMth sha leaves := by
  obtain ⟨stack⟩ := acc
  rcases h with _ | @⟨_, k, stack, left, chunk, -, hchunk, hstack⟩
  · rw [recursiveMth, mth]
    rfl
  · refine hstack.foldl_node (ne_nil_of_length_pos (hchunk ▸ Nat.two_pow_pos k)) ?_
    omega

end MerkleAccumulator

lemma rootOverFrom_map_ok {ceiling : UInt64}
    {held : List MerkleHash} (h : acc.Holds sha held) {pairs : List (Slice × Slice)} {spent : ℕ}
    (hfit : spent + pairs.length ≤ ceiling.toNat) :
    rootOverFrom sha ceiling spent acc (pairs.map (Except.ok (ε := ε))) =
      .ok (recursiveMth sha (held ++ pairs.map fun e => leafHash sha e.1 e.2)) := by
  induction pairs generalizing acc held spent with
  | nil =>
    rw [map_nil, map_nil, append_nil, rootOverFrom, h.finalize_eq]
  | cons pair pairs ih =>
    rw [length_cons] at hfit
    rw [map_cons, rootOverFrom, if_neg (by omega), ih (h.pushLeaf sha _) (by omega),
      append_assoc]
    rfl

/-! ## The root determines the entries -/

lemma merklePreimage_injective {x y : HashInput (Slice × Slice) MerkleHash}
    (h : merklePreimage x = merklePreimage y) : x = y := by
  rcases x with _ | ⟨⟨⟨key, hkey⟩, ⟨value, hvalue⟩⟩⟩ | ⟨left, right⟩ <;>
    rcases y with _ | ⟨⟨⟨key', hkey'⟩, ⟨value', hvalue'⟩⟩⟩ | ⟨left', right'⟩ <;>
    simp only [merklePreimage, emptyTag, leafTag, nodeTag, append_assoc, cons_append,
      nil_append, cons.injEq] at h <;> try exact absurd h.1 (by decide)
  · rfl
  · -- The length of the key tells where it ends.
    obtain ⟨hlen, hrest⟩ := append_inj h.2 (by simp)
    have hlen' : key.length = key'.length := by
      have hnat := congrArg UInt64.toNat (u64Bytes_injective hlen)
      rwa [UInt64.toNat_ofNat_of_lt' hkey, UInt64.toNat_ofNat_of_lt' hkey'] at hnat
    obtain ⟨rfl, rfl⟩ := append_inj hrest hlen'
    rfl
  · obtain ⟨hl, hr⟩ := append_inj h.2 (by simp)
    rw [Bytes32.bytes_injective hl, Bytes32.bytes_injective hr]

/-- The bytes hashed for the root over entries. -/
def rootInputs (pairs : List (Slice × Slice)) : List Bytes :=
  ((HashTree.ofList pairs).inputs fun x => sha (merklePreimage x)).map merklePreimage

lemma recursiveMth_injective {pairs pairs' : List (Slice × Slice)}
    (hcol : CollisionFree sha (rootInputs sha pairs ++ rootInputs sha pairs'))
    (h : recursiveMth sha (pairs.map fun e => leafHash sha e.1 e.2) =
      recursiveMth sha (pairs'.map fun e => leafHash sha e.1 e.2)) : pairs = pairs' := by
  let hash : HashInput (Slice × Slice) MerkleHash → MerkleHash :=
    fun x => sha (merklePreimage x)
  have hdigest : (HashTree.ofList pairs).digest hash = (HashTree.ofList pairs').digest hash := by
    rw [HashTree.digest_ofList, HashTree.digest_ofList]
    exact h
  refine HashTree.ofList_injective (HashTree.digest_injective ?_ hdigest)
  intro x hx y hy heq
  have hmem : ∀ x ∈ (HashTree.ofList pairs).inputs hash ++ (HashTree.ofList pairs').inputs hash,
      merklePreimage x ∈ rootInputs sha pairs ++ rootInputs sha pairs' := by
    intro x hx
    rw [rootInputs, rootInputs, ← map_append]
    exact mem_map_of_mem hx
  exact merklePreimage_injective (hcol _ (hmem x hx) _ (hmem y hy) heq)

/-- **The state root.**  Pushing leaf hashes one by one and finalising gives the recursive tree
hash. And two sequences of entries within their budgets have one root exactly when they are the
same, if the hash function does not collide on what is hashed for the two roots. -/
theorem merkle_state_root : (∀ leaves : List MerkleHash,
      (leaves.foldl (MerkleAccumulator.pushLeaf sha) .new).finalize sha =
        recursiveMth sha leaves) ∧
    ∀ (pairs pairs' : List (Slice × Slice)) (budget budget' : NonZeroU64),
      pairs.length ≤ budget.val.toNat → pairs'.length ≤ budget'.val.toNat →
      CollisionFree sha (rootInputs sha pairs ++ rootInputs sha pairs') →
      ∃ root root', rootOver sha (pairs.map (Except.ok (ε := ε))) budget = .ok root ∧
        rootOver sha (pairs'.map (Except.ok (ε := ε))) budget' = .ok root' ∧
        (root = root' ↔ pairs = pairs') := by
  have hnew := MerkleAccumulator.holds_new sha
  constructor
  · intro leaves
    exact (hnew.foldl_pushLeaf sha leaves).finalize_eq
  · intro pairs pairs' budget budget' hfit hfit' hcol
    refine ⟨_, _, rootOverFrom_map_ok sha hnew (by omega),
      rootOverFrom_map_ok sha hnew (by omega), fun h => ?_, fun h => by rw [h]⟩
    exact recursiveMth_injective sha hcol h

/-! ### Two entries and their digests -/

def entryFirst : Slice × Slice := (⟨ascii "k", by decide⟩, ⟨ascii "v", by decide⟩)
def entrySecond : Slice × Slice := (⟨ascii "l", by decide⟩, ⟨ascii "w", by decide⟩)

/-- SHA-256 of the first entry as a leaf. -/
def leafFirst : Bytes32 :=
  .ofNat 0x899FC6F90C48F68BEB6D49331552041FBA0219986BA032D3578B5431D6D87F7A

/-- SHA-256 of the second entry as a leaf. -/
def leafSecond : Bytes32 :=
  .ofNat 0xF134F7CC8C46957AC4F98893925FD6B8EC3A6B00EC1D95938A7BD1A50A243F55

/-- SHA-256 of the node over the two leaves. -/
def nodeOfBoth : Bytes32 :=
  .ofNat 0xC9051D626C4C520731BEF8AE250DC1BCEDD55075380D2383799B0B94D34E06BF

/-- SHA-256 on the bytes that the roots below hash. -/
def merkleDigestOf (b : Bytes) : Bytes32 :=
  if b = merklePreimage (.leaf entryFirst) then leafFirst
  else if b = merklePreimage (.leaf entrySecond) then leafSecond
  else nodeOfBoth

/-- An entry appended changes the root. -/
theorem merkle_state_root_appended :
    ∃ root root', rootOver (ε := Empty) merkleDigestOf [.ok entryFirst] ⟨10, by decide⟩ = .ok root ∧
      rootOver (ε := Empty) merkleDigestOf [.ok entryFirst, .ok entrySecond] ⟨10, by decide⟩ =
        .ok root' ∧ root ≠ root' := by
  have hcol : CollisionFree merkleDigestOf (rootInputs merkleDigestOf [entryFirst] ++
      rootInputs merkleDigestOf [entryFirst, entrySecond]) := by
    decide +kernel
  obtain ⟨root, root', hroot, hroot', hiff⟩ := (merkle_state_root merkleDigestOf).2
    [entryFirst] [entryFirst, entrySecond] ⟨10, by decide⟩ ⟨10, by decide⟩ (by decide) (by decide)
    hcol
  refine ⟨root, root', hroot, hroot', fun h => ?_⟩
  exact absurd (congrArg length (hiff.mp h)) (by decide)

end Kyzo

import Mathlib

/-!
# Merkle trees over a list of leaves

The tree hash that splits a list at the largest power of two below its length, the peaks that a
streaming computation of it keeps, and the tree itself, whose digest determines it when what is
hashed does not collide.
-/

namespace Kyzo

open List

/-! ## The split point -/

/-- Doubles `k` while the double is below `n`. -/
def splitFrom (n k : ℕ) (hk : 0 < k) : ℕ :=
  if k * 2 < n then splitFrom n (k * 2) (by omega) else k
termination_by n - k

/-- The largest power of two below `n`. -/
def splitPoint (n : ℕ) : ℕ := splitFrom n 1 Nat.one_pos

lemma splitFrom_pow {n i : ℕ} (h : 2 ^ i < n) :
    ∃ j, splitFrom n (2 ^ i) (Nat.two_pow_pos i) = 2 ^ j ∧ 2 ^ j < n ∧ n ≤ 2 ^ (j + 1) := by
  induction hm : n - 2 ^ i using Nat.strong_induction_on generalizing i with
  | _ m ih =>
    rw [splitFrom]
    split_ifs with hlt
    · have hpos := Nat.two_pow_pos i
      rw [← Nat.pow_succ] at hlt
      exact ih _ (by omega) hlt rfl
    · exact ⟨i, rfl, h, by omega⟩

lemma splitPoint_eq {n j : ℕ} (hlt : 2 ^ j < n) (hle : n ≤ 2 ^ (j + 1)) : splitPoint n = 2 ^ j := by
  have hone : 2 ^ 0 < n := (Nat.one_le_two_pow).trans_lt hlt
  obtain ⟨i, hi, hlti, hlei⟩ := splitFrom_pow hone
  have hij : i < j + 1 := (Nat.pow_lt_pow_iff_right (by omega)).mp (hlti.trans_le hle)
  have hji : j < i + 1 := (Nat.pow_lt_pow_iff_right (by omega)).mp (hlt.trans_le hlei)
  obtain rfl : i = j := by omega
  exact hi

lemma splitPoint_pos_lt {n : ℕ} (h : 1 < n) : 0 < splitPoint n ∧ splitPoint n < n := by
  obtain ⟨j, hj, hlt, -⟩ := splitFrom_pow (i := 0) h
  have hsplit : splitPoint n = 2 ^ j := hj
  rw [hsplit]
  exact ⟨Nat.two_pow_pos j, hlt⟩

/-! ## The tree hash -/

section TreeHash

variable {δ : Type*} (empty : δ) (node : δ → δ → δ)

/-- The hash of a list of leaf hashes. -/
def mth : List δ → δ
  | [] => empty
  | [leaf] => leaf
  | a :: b :: rest =>
    have hsplit := splitPoint_pos_lt (n := (a :: b :: rest).length) (by simp)
    node (mth ((a :: b :: rest).take (splitPoint (a :: b :: rest).length)))
      (mth ((a :: b :: rest).drop (splitPoint (a :: b :: rest).length)))
termination_by leaves => leaves.length
decreasing_by
  · rw [length_take]; omega
  · rw [length_drop]; omega

variable {empty node}

lemma mth_split {leaves : List δ} (h : 1 < leaves.length) :
    mth empty node leaves = node (mth empty node (leaves.take (splitPoint leaves.length)))
      (mth empty node (leaves.drop (splitPoint leaves.length))) := by
  match leaves, h with
  | a :: b :: rest, _ => rw [mth]

lemma mth_append {left right : List δ} {k : ℕ} (hleft : left.length = 2 ^ k) (hne : right ≠ [])
    (hright : right.length ≤ 2 ^ k) :
    mth empty node (left ++ right) = node (mth empty node left) (mth empty node right) := by
  have hpos := length_pos_iff.mpr hne
  have hlen : (left ++ right).length = left.length + right.length := length_append
  have hsplit : splitPoint (left ++ right).length = left.length := by
    rw [hleft]
    exact splitPoint_eq (by omega) (by omega)
  rw [mth_split (by omega), hsplit, take_left, drop_left]

/-! ## Peaks -/

variable (empty node)

/-- A stack of perfect subtrees, the rightmost and smallest on top, over leaves read from left to
right.  Each entry is a number of leaves and their hash, and no entry has fewer than `2 ^ low`. -/
inductive Peaks : ℕ → List (ℕ × δ) → List δ → Prop
  | nil {low : ℕ} : Peaks low [] []
  | cons {low k : ℕ} {stack : List (ℕ × δ)} {left chunk : List δ} (hlow : low ≤ k)
      (hchunk : chunk.length = 2 ^ k) (hstack : Peaks (k + 1) stack left) :
      Peaks low ((2 ^ k, mth empty node chunk) :: stack) (left ++ chunk)

variable {empty node}

namespace Peaks

lemma foldl_node {low : ℕ} {stack : List (ℕ × δ)} {left right : List δ}
    (h : Peaks empty node low stack left) (hne : right ≠ []) (hright : right.length ≤ 2 ^ low) :
    stack.foldl (fun acc peak => node peak.2 acc) (mth empty node right) =
      mth empty node (left ++ right) := by
  induction h generalizing right with
  | nil => rfl
  | @cons low k stack left chunk hlow hchunk hstack ih =>
    have hfit : right.length ≤ 2 ^ k := hright.trans (Nat.pow_le_pow_right (by omega) hlow)
    have hchunk' : (chunk ++ right).length ≤ 2 ^ (k + 1) := by
      rw [length_append]
      omega
    have hnode : node (mth empty node chunk) (mth empty node right) =
        mth empty node (chunk ++ right) := (mth_append hchunk hne hfit).symm
    rw [foldl_cons, hnode, ih (by simp [hne]) hchunk', append_assoc]

end Peaks

end TreeHash

/-! ## Trees -/

/-- What is hashed: nothing, a leaf, or two digests. -/
inductive HashInput (α δ : Type*) where
  | empty
  | leaf (a : α)
  | node (left right : δ)

/-- A binary tree with its data in the leaves. -/
inductive HashTree (α : Type*) where
  | empty
  | leaf (a : α)
  | node (left right : HashTree α)

namespace HashTree

variable {α δ : Type*}

/-- The data of a tree from left to right. -/
def leaves : HashTree α → List α
  | empty => []
  | leaf a => [a]
  | node left right => left.leaves ++ right.leaves

variable (hash : HashInput α δ → δ)

/-- The digest of a tree. -/
def digest : HashTree α → δ
  | empty => hash .empty
  | leaf a => hash (.leaf a)
  | node left right => hash (.node left.digest right.digest)

/-- Everything that is hashed for the digest of a tree. -/
def inputs : HashTree α → List (HashInput α δ)
  | empty => [.empty]
  | leaf a => [.leaf a]
  | node left right => .node (left.digest hash) (right.digest hash) :: (left.inputs ++ right.inputs)

variable {hash}

/-- **A digest determines its tree**, if what the two trees hash does not collide. -/
theorem digest_injective {t t' : HashTree α}
    (hcol : Set.InjOn hash { x | x ∈ t.inputs hash ++ t'.inputs hash })
    (h : t.digest hash = t'.digest hash) : t = t' := by
  induction t generalizing t' <;> cases t' <;>
    have heq := hcol (by simp [inputs]) (by simp [inputs]) h <;>
    simp only [reduceCtorEq, HashInput.leaf.injEq, HashInput.node.injEq] at heq
  case empty.empty => rfl
  case leaf.leaf => rw [heq]
  case node.node left right ihl ihr left' right' =>
    have hsub : ∀ x, x ∈ left.inputs hash ++ left'.inputs hash ∨
        x ∈ right.inputs hash ++ right'.inputs hash →
        x ∈ (node left right).inputs hash ++ (node left' right').inputs hash := by
      intro x hx
      simp only [inputs, mem_append, mem_cons] at hx ⊢
      tauto
    rw [ihl (hcol.mono fun x hx => hsub x (.inl hx)) heq.1,
      ihr (hcol.mono fun x hx => hsub x (.inr hx)) heq.2]

/-- The tree over a list, split at the largest power of two below its length. -/
def ofList : List α → HashTree α
  | [] => .empty
  | [a] => .leaf a
  | a :: b :: rest =>
    have hsplit := splitPoint_pos_lt (n := (a :: b :: rest).length) (by simp)
    .node (ofList ((a :: b :: rest).take (splitPoint (a :: b :: rest).length)))
      (ofList ((a :: b :: rest).drop (splitPoint (a :: b :: rest).length)))
termination_by l => l.length
decreasing_by
  · rw [length_take]; omega
  · rw [length_drop]; omega

@[simp] lemma leaves_ofList (l : List α) : (ofList l).leaves = l := by
  fun_induction ofList l with
  | case1 => rfl
  | case2 a => rfl
  | case3 a b rest hsplit ihl ihr => rw [leaves, ihl, ihr, take_append_drop]

lemma ofList_injective {l l' : List α} (h : ofList l = ofList l') : l = l' := by
  rw [← leaves_ofList l, h, leaves_ofList]

lemma digest_ofList (hash : HashInput α δ → δ) (l : List α) : (ofList l).digest hash =
      mth (hash .empty) (fun x y => hash (.node x y)) (l.map fun a => hash (.leaf a)) := by
  fun_induction ofList l with
  | case1 => rw [map_nil, mth]; rfl
  | case2 a => rw [map_cons, map_nil, mth]; rfl
  | case3 a b rest hsplit ihl ihr =>
    rw [mth_split (by simp), length_map, ← map_take, ← map_drop, ← ihl, ← ihr]
    rfl

end HashTree

end Kyzo

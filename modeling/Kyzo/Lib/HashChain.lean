import Mathlib.Data.List.Induction
import Mathlib.Data.Set.Function

/-!
# Hash chains

A chain folds a sequence of payloads into one digest, each link hashing the digest before it
together with its own payload.  A digest determines the whole sequence as long as the links that
were hashed do not collide and no link but the last gives back the digest the chain starts from.
-/

namespace Kyzo

open List

variable {α δ : Type*} (link : δ → α → δ)

/-- The digest of a chain that starts from `start`. -/
def chainHash (start : δ) (payloads : List α) : δ := payloads.foldl link start

/-- What a chain hashes: each payload with the digest before it. -/
def chainInputs : δ → List α → List (δ × α)
  | _, [] => []
  | start, payload :: payloads => (start, payload) :: chainInputs (link start payload) payloads

variable (start : δ) (payloads : List α)

/-- The digests of the links of a chain. -/
def chainDigests : List δ :=
  (chainInputs link start payloads).map fun e => link e.1 e.2

variable {link}

@[simp] lemma chainHash_nil : chainHash link start [] = start := rfl

@[simp] lemma chainHash_cons (payload : α) (payloads : List α) :
    chainHash link start (payload :: payloads) = chainHash link (link start payload) payloads := rfl

lemma chainHash_append (payloads payloads' : List α) :
    chainHash link start (payloads ++ payloads') =
      chainHash link (chainHash link start payloads) payloads' := by
  rw [chainHash, foldl_append]
  rfl

lemma chainInputs_append (payloads payloads' : List α) :
    chainInputs link start (payloads ++ payloads') =
      chainInputs link start payloads ++
        chainInputs link (chainHash link start payloads) payloads' := by
  induction payloads generalizing start with
  | nil => rfl
  | cons payload payloads ih =>
    rw [cons_append, chainInputs, chainInputs, ih, cons_append, chainHash_cons]

lemma getLast?_chainDigests :
    (chainDigests link start payloads).getLast?.getD start = chainHash link start payloads := by
  rcases eq_nil_or_concat payloads with rfl | ⟨front, last, rfl⟩
  · rfl
  · rw [chainDigests, concat_eq_append, chainInputs_append, chainHash_append]
    simp [chainInputs]

lemma dropLast_chainDigests (last : α) :
    (chainDigests link start (payloads ++ [last])).dropLast = chainDigests link start payloads := by
  rw [chainDigests, chainInputs_append, map_append]
  exact dropLast_concat

lemma chainHash_mem_chainDigests (link : δ → α → δ) (start : δ) {payloads : List α}
    (hne : payloads ≠ []) :
    chainHash link start payloads ∈ chainDigests link start payloads := by
  obtain h | ⟨front, last, rfl⟩ := eq_nil_or_concat payloads
  · exact absurd h hne
  · rw [concat_eq_append, chainHash_append, chainDigests, chainInputs_append]
    simp [chainInputs]

/-- **A digest determines its chain**: two nonempty chains from one start with one digest are the
same sequence, if the links they hash do not collide and no link but the last gives the start
back. -/
theorem chainHash_injective {start : δ} {payloads payloads' : List α}
    (hcol : Set.InjOn (fun e : δ × α => link e.1 e.2)
      { e | e ∈ chainInputs link start payloads ∨ e ∈ chainInputs link start payloads' })
    (hstart : start ∉ (chainDigests link start payloads).dropLast)
    (hstart' : start ∉ (chainDigests link start payloads').dropLast)
    (hne : payloads ≠ []) (hne' : payloads' ≠ [])
    (h : chainHash link start payloads = chainHash link start payloads') :
    payloads = payloads' := by
  induction payloads using List.reverseRecOn generalizing payloads' with
  | nil => exact absurd rfl hne
  | append_singleton front last ih =>
    obtain ⟨front', last', rfl⟩ : ∃ front' last', payloads' = front' ++ [last'] := by
      obtain h' | ⟨front', last', h'⟩ := eq_nil_or_concat payloads'
      · exact absurd h' hne'
      · exact ⟨front', last', by rw [h', concat_eq_append]⟩
    rw [dropLast_chainDigests] at hstart hstart'
    rw [chainHash_append, chainHash_append] at h
    -- The last links hash the same, so they are the same link.
    have hlink : (chainHash link start front, last) = (chainHash link start front', last') := by
      refine hcol (.inl ?_) (.inr ?_) h
      · simp [chainInputs_append, chainInputs]
      · simp [chainInputs_append, chainInputs]
    obtain ⟨hfront, rfl⟩ := Prod.mk.inj hlink
    -- A front without links leaves the start, which no link gives back.
    by_cases hnil : front = []
    · by_cases hnil' : front' = []
      · rw [hnil, hnil']
      · have hmem := chainHash_mem_chainDigests link start hnil'
        rw [← hfront, hnil] at hmem
        exact absurd hmem hstart'
    · by_cases hnil' : front' = []
      · have hmem := chainHash_mem_chainDigests link start hnil
        rw [hfront, hnil'] at hmem
        exact absurd hmem hstart
      · have hcol' : Set.InjOn (fun e : δ × α => link e.1 e.2)
            { e | e ∈ chainInputs link start front ∨ e ∈ chainInputs link start front' } := by
          refine hcol.mono ?_
          rintro e (he | he)
          · exact .inl (by rw [chainInputs_append]; exact mem_append_left _ he)
          · exact .inr (by rw [chainInputs_append]; exact mem_append_left _ he)
        rw [ih hcol' (mt (dropLast_subset _ ·) hstart) (mt (dropLast_subset _ ·) hstart')
          hnil hnil' hfront]

end Kyzo

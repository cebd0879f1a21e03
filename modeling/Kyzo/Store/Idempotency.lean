import Kyzo.Store.Identity

/-!
# Operation keys

The idempotency ledger files an outcome under a digest of the domain label, the composition, the
store and the step.  Label and step have any length and the digest covers neither length, so where
the label ends is not part of what is hashed.
-/

namespace Kyzo

open List Bytes32

lemma Bytes32.exists_eq_append (text : Bytes) (h : 32 ≤ text.length) :
    ∃ (b : Bytes32) (rest : Bytes), text = b.bytes ++ rest :=
  ⟨⟨text.take 32, length_take_of_le h⟩, text.drop 32, (take_append_drop 32 text).symm⟩

structure OperationKey where
  digest : Bytes32

namespace OperationKey

/-- What `derive` hashes. -/
def preimage (domainLabel : Bytes) (compositionId : Bytes32) (storeId : StoreId) (stepId : Bytes) :
    Bytes :=
  ascii "kyzo.operation_key.v1" ++ domainLabel ++ compositionId.bytes ++ storeId.digest.bytes ++
    stepId

def derive (sha : Bytes → Bytes32) (domainLabel : Bytes) (compositionId : Bytes32)
    (storeId : StoreId) (stepId : Bytes) : OperationKey :=
  ⟨sha (preimage domainLabel compositionId storeId stepId)⟩

variable {label label' step step' : Bytes} {composition composition' : Bytes32}
  {store store' : StoreId}

lemma preimage_eq_iff :
    preimage label composition store step = preimage label' composition' store' step' ↔
      label ++ (composition.bytes ++ (store.digest.bytes ++ step)) =
        label' ++ (composition'.bytes ++ (store'.digest.bytes ++ step')) := by
  simp [preimage, append_assoc, append_cancel_left_eq]

/-- Under one label the components have fixed places. -/
theorem eq_of_preimage_eq
    (h : preimage label composition store step = preimage label composition' store' step') :
    composition = composition' ∧ store = store' ∧ step = step' := by
  have hrest := append_cancel_left (preimage_eq_iff.mp h)
  obtain ⟨hcomposition, hrest⟩ := append_inj hrest (by simp)
  obtain ⟨hstore, hstep⟩ := append_inj hrest (by simp)
  refine ⟨bytes_injective hcomposition, ?_, hstep⟩
  exact congrArg StoreId.mk (bytes_injective hstore)

/-- The bytes a longer label has more can be read as the start of the shorter one's composition. -/
theorem exists_preimage_eq (label tail : Bytes) (composition : Bytes32) (store : StoreId)
    (step : Bytes) : ∃ composition' store' step',
      preimage label composition' store' step' =
        preimage (label ++ tail) composition store step := by
  obtain ⟨composition', rest, h⟩ := exists_eq_append (tail ++ (composition.bytes ++
    (store.digest.bytes ++ step))) (by simp only [length_append, length_bytes]; omega)
  have hlen := congrArg length h
  simp only [length_append, length_bytes] at hlen
  obtain ⟨store', step', rfl⟩ := exists_eq_append rest (by omega)
  exact ⟨composition', ⟨store'⟩, step', preimage_eq_iff.mpr (by rw [append_assoc, h])⟩

lemma derive_eq_of_preimage_eq (sha : Bytes → Bytes32)
    (h : preimage label composition store step = preimage label' composition' store' step') :
    derive sha label composition store step = derive sha label' composition' store' step' :=
  congrArg (fun p => mk (sha p)) h

end OperationKey

open OperationKey in
/-- **When keys tell operations apart**: two labels never share a key for different operations
exactly if they are one label, or neither starts with the other. -/
theorem derive_injective_iff (sha : Bytes → Bytes32) (label label' : Bytes) :
    (∀ composition store step composition' store' step',
      CollisionFree sha [preimage label composition store step,
        preimage label' composition' store' step'] →
      derive sha label composition store step = derive sha label' composition' store' step' →
      label = label' ∧ composition = composition' ∧ store = store' ∧ step = step') ↔
    label = label' ∨ ¬label <+: label' ∧ ¬label' <+: label := by
  constructor
  · intro h
    by_contra hcon
    rw [not_or, not_and_or, not_not, not_not] at hcon
    obtain ⟨hne, ⟨tail, rfl⟩ | ⟨tail, rfl⟩⟩ := hcon
    · obtain ⟨composition, store, step, heq⟩ :=
        exists_preimage_eq label tail (.replicate 0) ⟨.replicate 0⟩ []
      exact hne (h composition store step _ _ _ (by simp [CollisionFree, heq])
        (derive_eq_of_preimage_eq sha heq)).1
    · obtain ⟨composition, store, step, heq⟩ :=
        exists_preimage_eq label' tail (.replicate 0) ⟨.replicate 0⟩ []
      exact hne (h _ _ _ composition store step (by simp [CollisionFree, heq])
        (derive_eq_of_preimage_eq sha heq.symm)).1
  · intro hlabels composition store step composition' store' step' hfree hkey
    have heq := hfree _ (.head _) _ (by simp) (congrArg digest hkey)
    obtain rfl : label = label' := by
      obtain hlabels | ⟨hle, hge⟩ := hlabels
      · exact hlabels
      · have hpre := preimage_eq_iff.mp heq
        -- Both labels are where one text starts.
        obtain h | h := prefix_or_prefix_of_prefix (prefix_append label _)
          (hpre ▸ prefix_append label' _)
        · exact absurd h hle
        · exact absurd h hge
    exact ⟨rfl, eq_of_preimage_eq heq⟩

/-- A label that ends in one byte more takes it from the composition, and the step gives one
back. -/
theorem derive_shares_key_across_labels :
    (fun sha => OperationKey.derive sha [] (.replicate 0) ⟨.replicate 0⟩ [0]) =
      fun sha => OperationKey.derive sha [0] (.replicate 0) ⟨.replicate 0⟩ [] := by
  funext sha
  exact OperationKey.derive_eq_of_preimage_eq sha (by decide)

end Kyzo

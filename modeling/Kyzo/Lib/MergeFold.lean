import Kyzo.Lib.Except

/-!
# Folds that can be split and merged

An accumulator takes values in one by one, and two accumulators can be merged; both can fail.  If
one can say which accumulators stand for which multisets of values, then a fold over values, and a
fold over the parts of a split that are merged afterwards, end in accumulators that stand for the
same multiset.
-/

namespace Kyzo

open List Multiset

namespace MergeFold

variable {A V E : Type}

/-- What a merge keeps: the accumulator that comes first, and then the merge of each one with what
is kept. -/
def keep (join : A → A → Except E A) : Option A → A → Except E (Option A)
  | none, b => .ok (some b)
  | some a, b => (join a b).map some

/-- **Sound folds**: while the values are valid together, putting one in and merging succeed and
keep track of what the accumulators stand for. -/
structure Sound (init : A) (put : A → V → Except E A) (join : A → A → Except E A)
    (valid : Multiset V → Prop) (stands : A → Multiset V → Prop) : Prop where
  mono : ∀ {m m' : Multiset V}, m ≤ m' → valid m' → valid m
  init : stands init 0
  put : ∀ {a : A} {m : Multiset V} {v : V}, stands a m → valid (m + {v}) →
    ∃ a', put a v = .ok a' ∧ stands a' (m + {v})
  join : ∀ {a b : A} {m m' : Multiset V}, stands a m → stands b m' → valid (m + m') →
    ∃ a', join a b = .ok a' ∧ stands a' (m + m')

namespace Sound

variable {init : A} {put : A → V → Except E A} {join : A → A → Except E A}
  {valid : Multiset V → Prop} {stands : A → Multiset V → Prop}
  (h : Sound init put join valid stands)

include h

variable {vs : List V} {a : A} {m : Multiset V}

lemma foldlM_put (ha : stands a m) (hvalid : valid (m + (vs : Multiset V))) :
    ∃ a', vs.foldlM put a = .ok a' ∧ stands a' (m + (vs : Multiset V)) := by
  induction vs generalizing a m with
  | nil => exact ⟨a, rfl, by simpa using ha⟩
  | cons v vs ih =>
    have hcons : m + ((v :: vs : List V) : Multiset V) = m + {v} + (vs : Multiset V) := by
      rw [add_assoc, singleton_add, cons_coe]
    rw [hcons] at hvalid ⊢
    obtain ⟨a', hput, ha'⟩ := h.put ha (h.mono (le_add_right _ _) hvalid)
    obtain ⟨a'', hfold, ha''⟩ := ih ha' hvalid
    refine ⟨a'', ?_, ha''⟩
    rw [foldlM_cons, hput]
    exact hfold

lemma fold (hvalid : valid (vs : Multiset V)) :
    ∃ a, vs.foldlM put init = .ok a ∧ stands a (vs : Multiset V) := by
  simpa using h.foldlM_put h.init (by simpa using hvalid)

variable {parts : List (List V)}

lemma merge_from (ha : stands a m) (hvalid : valid (m + (parts.flatten : Multiset V))) :
    ∃ accs a', parts.mapM (fun vs => vs.foldlM put init) = .ok accs ∧
      accs.foldlM (keep join) (some a) = .ok (some a') ∧
      stands a' (m + (parts.flatten : Multiset V)) := by
  induction parts generalizing a m with
  | nil => exact ⟨[], a, rfl, rfl, by simpa using ha⟩
  | cons vs parts ih =>
    have hcons : m + ((vs :: parts).flatten : Multiset V) =
        m + (vs : Multiset V) + (parts.flatten : Multiset V) := by
      rw [flatten_cons, ← coe_add, add_assoc]
    rw [hcons] at hvalid ⊢
    have hprev : valid (m + (vs : Multiset V)) := h.mono (le_add_right _ _) hvalid
    obtain ⟨b, hb, hstands⟩ := h.fold (h.mono (le_add_left _ _) hprev)
    obtain ⟨a', hjoin, ha'⟩ := h.join ha hstands hprev
    obtain ⟨accs, a'', haccs, hfold, ha''⟩ := ih ha' hvalid
    refine ⟨b :: accs, a'', ?_, ?_, ha''⟩
    · rw [mapM_cons, hb, haccs]
      rfl
    · rw [foldlM_cons, keep, hjoin]
      exact hfold

/-- **Folds over parts, merged**, stand for all the values. -/
theorem merge (hne : parts ≠ []) (hvalid : valid (parts.flatten : Multiset V)) :
    ∃ accs a, parts.mapM (fun vs => vs.foldlM put init) = .ok accs ∧
      accs.foldlM (keep join) none = .ok (some a) ∧ stands a (parts.flatten : Multiset V) := by
  rcases parts with _ | ⟨vs, parts⟩
  · exact absurd rfl hne
  rw [flatten_cons, ← coe_add] at hvalid ⊢
  obtain ⟨b, hb, hstands⟩ := h.fold (h.mono (le_add_right _ _) hvalid)
  obtain ⟨accs, a, haccs, hfold, ha⟩ := h.merge_from hstands hvalid
  refine ⟨b :: accs, a, ?_, hfold, ha⟩
  rw [mapM_cons, hb, haccs]
  rfl

end Sound

end MergeFold

end Kyzo

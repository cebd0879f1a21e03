import Kyzo.Lib.Except

/-!
# Prefix codecs

A decoder of the kind considered here reads a value off the front of a string and reports how many
symbols it took.  `Faithful d enc` says that `d` and the encoder `enc` are inverse: `d` reads back
what `enc` writes, whatever follows, and whatever `d` accepts begins with the encoding of the value
it returns.

Decoders that also enforce a side condition on the value (a nesting bound, say) are described by
`Answers`: the value when the condition holds, one fixed error when it does not.
-/

namespace Kyzo

open List

universe u

variable {ε β : Type*} {α γ : Type u}

/-! ## Reading back -/

variable (d : List β → Except ε (α × ℕ))

/-- On any string that begins with `w`, the decoder answers `a` if the condition holds and the error
`e` if not. -/
def Answers (c : Prop) [Decidable c] (e : ε) (a : α) (w : List β) : Prop :=
  ∀ s, d (w ++ s) = if c then .ok (a, w.length) else .error e

/-- On any string that begins with `w`, the decoder reads `a` and takes exactly `w`. -/
def Reads (a : α) (w : List β) : Prop :=
  ∀ s, d (w ++ s) = .ok (a, w.length)

section Answers

variable {d} {c : Prop} [Decidable c] {e : ε} {a : α} {w : List β}

variable (h : Answers d c e a w)
include h

lemma Answers.reads (hc : c) : Reads d a w := by
  intro s
  rw [h s, if_pos hc]

lemma Answers.fails (hc : ¬ c) (s : List β) : d (w ++ s) = .error e := by
  rw [h s, if_neg hc]

omit h in
lemma Reads.answers (h : Reads d a w) (hc : c) (e : ε) : Answers d c e a w := by
  intro s
  rw [h s, if_pos hc]

lemma Answers.congr {c' : Prop} [Decidable c'] (hcc : c ↔ c') : Answers d c' e a w := by
  intro s
  rw [h s]
  exact if_congr hcc rfl rfl

omit h in
lemma Reads.bind (h : Reads d a w) (s : List β) (f : α × ℕ → Except ε γ) :
    (d (w ++ s) >>= f) = f (a, w.length) := by
  rw [h s]
  rfl

lemma Answers.bind_fails (hc : ¬ c) (s : List β)
    (f : α × ℕ → Except ε γ) : (d (w ++ s) >>= f) = .error e := by
  rw [h.fails hc s]
  rfl

lemma Answers.map_cons (mk : α → γ) (b : β) (s : List β) :
    (d (w ++ s) >>= fun r => .ok (mk r.1, 1 + r.2)) =
      if c then .ok (mk a, (b :: w).length) else .error e := by
  by_cases hc : c
  · rw [(h.reads hc).bind, if_pos hc, length_cons, Nat.add_comm]
  · rw [h.bind_fails hc, if_neg hc]

end Answers

/-! ## Accepting nothing else -/

/-- Whatever the decoder accepts satisfies `P` and begins with the encoding of the answer. -/
def Sound (P : α → Prop) (enc : α → List β) : Prop :=
  ∀ bytes a k, d bytes = .ok (a, k) → P a ∧ ∃ s, bytes = enc a ++ s ∧ k = (enc a).length

/-- The decoder and the encoder are inverse to each other. -/
structure Faithful (d : List β → Except ε (α × ℕ)) (enc : α → List β) : Prop where
  /-- What is written is read back. -/
  reads : ∀ a, Reads d a (enc a)
  /-- What is accepted was written. -/
  sound : ∀ bytes a k, d bytes = .ok (a, k) → ∃ s, bytes = enc a ++ s ∧ k = (enc a).length

/-- A fixed-width field: the decoder looks at the first `n` symbols only. -/
theorem Faithful.of_width {d : List β → Except ε (α × ℕ)} {enc : α → List β} (n : ℕ)
    (read : List β → α) (hlen : ∀ a, (enc a).length = n) (hread : ∀ a, read (enc a) = a)
    (henc : ∀ w : List β, w.length = n → enc (read w) = w)
    (hd : ∀ bytes, n ≤ bytes.length → d bytes = .ok (read (bytes.take n), n))
    (herr : ∀ bytes r, bytes.length < n → d bytes ≠ .ok r) : Faithful d enc where
  reads := by
    intro a s
    have htake : (enc a ++ s).take n = enc a := by
      rw [← hlen a, take_left]
    rw [hd _ (by rw [length_append, hlen a]; omega), htake, hread, hlen]
  sound := by
    intro bytes a k h
    by_cases hn : bytes.length < n
    · exact absurd h (herr _ _ hn)
    · rw [hd _ (by omega)] at h
      cases h
      have htake : enc (read (bytes.take n)) = bytes.take n :=
        henc _ (by rw [length_take]; omega)
      refine ⟨bytes.drop n, ?_, (hlen _).symm⟩
      rw [htake, take_append_drop]

/-! ## Loops -/

section Loop

variable {ε β α σ : Type} (loop : ℕ → σ → List β → Except ε (List α × ℕ)) (next : α → σ) {stop : β}
  {enc : α → List β}

/-- A loop over items up to a stop symbol answers the items, or the error of the first one that is
refused, if each round does so where the state fits what is to come. -/
theorem Answers.of_rounds {good : α → Prop} [DecidablePred good] {e : ε} (Fits : σ → List α → Prop)
    (hnext : ∀ {st x xs}, Fits st (x :: xs) → Fits (next x) xs)
    (hstop : ∀ bound st s, loop (bound + 1) st (stop :: s) = .ok ([], 1))
    (hround : ∀ {st x xs}, Fits st (x :: xs) → ∀ bound t, loop (bound + 1) st (enc x ++ t) =
      if good x then loop bound (next x) t >>= fun rs => .ok (x :: rs.1, (enc x).length + rs.2)
      else .error e)
    (items : List α) {bound : ℕ} (hbound : items.length < bound) (st : σ) (hfits : Fits st items) :
    Answers (loop bound st) (∀ x ∈ items, good x) e items (items.flatMap enc ++ [stop]) := by
  induction items generalizing bound st with
  | nil =>
    obtain ⟨bound, rfl⟩ := Nat.exists_eq_add_one_of_ne_zero (Nat.ne_zero_of_lt hbound)
    intro s
    simpa using hstop bound st s
  | cons x xs ih =>
    obtain ⟨bound, rfl⟩ := Nat.exists_eq_add_one_of_ne_zero (Nat.ne_zero_of_lt hbound)
    intro s
    have hrest := ih (Nat.lt_of_succ_lt_succ hbound) _ (hnext hfits) s
    rw [flatMap_cons, append_assoc, append_assoc, ← append_assoc _ _ s, hround hfits, hrest]
    by_cases hx : good x
    · by_cases hxs : ∀ y ∈ xs, good y
      · rw [if_pos hx, if_pos hxs, if_pos (forall_mem_cons.mpr ⟨hx, hxs⟩)]
        simp [bind, Except.bind]
      · rw [if_pos hx, if_neg hxs, if_neg fun h => hxs (forall_mem_cons.mp h).2]
        rfl
    · rw [if_neg hx, if_neg fun h => hx (forall_mem_cons.mp h).1]

lemma Sound.of_rounds (Fits : σ → List α → Prop) (hnil : ∀ st, Fits st [])
    (hzero : ∀ st bytes r, loop 0 st bytes ≠ .ok r)
    (hround : ∀ bound st bytes xs k, loop (bound + 1) st bytes = .ok (xs, k) →
      (∃ s, bytes = stop :: s ∧ xs = [] ∧ k = 1) ∨
      ∃ x t xs' used, bytes = enc x ++ t ∧ loop bound (next x) t = .ok (xs', used) ∧
        (Fits (next x) xs' → Fits st (x :: xs')) ∧ xs = x :: xs' ∧ k = (enc x).length + used)
    (bound : ℕ) (st : σ) :
    Sound (loop bound st) (Fits st) (fun xs => xs.flatMap enc ++ [stop]) := by
  induction bound generalizing st with
  | zero => exact fun bytes xs k h => absurd h (hzero st bytes (xs, k))
  | succ bound ih =>
    intro bytes xs k h
    rcases hround bound st bytes xs k h with
      ⟨s, rfl, rfl, rfl⟩ | ⟨x, t, xs', used, rfl, hrest, hfits, rfl, rfl⟩
    · exact ⟨hnil st, s, rfl, rfl⟩
    · obtain ⟨hxs, s, rfl, rfl⟩ := ih _ _ _ _ hrest
      exact ⟨hfits hxs, s, by simp, by simp⟩

end Loop

end Kyzo

import Kyzo.Value.CanonicalPayload

/-!
# The item loops of the decoder

The loops over the items of a list, the elements of a set and the entries of an object, for any
item decoder.  Each reads back what the encoder writes and accepts nothing else; where an item
decoder refuses an item, the loop refuses with the same error.
-/

namespace Kyzo

open List

variable {α : Type} {item : Decoder α} {enc : α → Bytes}

/-- A sequence is longer than the number of its items. -/
lemma length_lt_flatMap {β : Type} {enc : β → Bytes} (items : List β)
    (henc : ∀ x ∈ items, ∃ b bs, enc x = b :: bs) (s : Bytes) :
    items.length < ((items.flatMap enc ++ [structSeqEnd]) ++ s).length := by
  have hle : items.length ≤ (items.flatMap enc).length := by
    induction items with
    | nil => simp
    | cons x xs ih =>
      obtain ⟨b, bs, hx⟩ := henc x (by simp)
      have hxs := ih fun y hy => henc y (by simp [hy])
      rw [flatMap_cons, length_append, hx, length_cons, length_cons]
      omega
  rw [length_append, length_append, length_singleton]
  omega

variable {p : α → Prop} {e : DecodeError} {P : α → Prop}

/-! ## Lists and sets -/

section

variable {prev : Option Bytes} {w : Bytes} {ws : List Bytes}

/-- What the check of neighbours adds to an ascending list. -/
theorem ascending_cons_iff : Ascending compare (prev.toList ++ w :: ws) ↔
    prev.all (compare · w = .lt) = true ∧ Ascending compare (w :: ws) := by
  cases prev with
  | none => simp
  | some q =>
    rw [Option.all_some, decide_eq_true_eq]
    refine ⟨fun h => ⟨rel_of_pairwise_cons h (.head _), h.of_cons⟩, fun ⟨hlt, h⟩ => ?_⟩
    refine pairwise_cons.mpr ⟨forall_mem_cons.mpr ⟨hlt, fun y hy => ?_⟩, h⟩
    exact Std.TransCmp.lt_trans hlt (rel_of_pairwise_cons h hy)

end

variable {follows : Bytes → Bytes → Bool} {prev : Option Bytes}

/-- Each encoding follows the one before it. -/
def Follow (follows : Bytes → Bytes → Bool) (enc : α → Bytes) : Option Bytes → List α → Prop
  | _, [] => True
  | prev, x :: xs => prev.all (follows · (enc x)) = true ∧ Follow follows enc (some (enc x)) xs

lemma follow_true (xs : List α) : Follow (fun _ _ => true) enc prev xs := by
  induction xs generalizing prev with
  | nil => trivial
  | cons x xs ih => exact ⟨by cases prev <;> rfl, ih⟩

/-- Encodings that follow in the byte order ascend. -/
lemma follow_lt_iff (prev : Option Bytes) (xs : List α) :
    Follow (fun p q => compare p q = .lt) enc prev xs ↔
    Ascending compare (prev.toList ++ xs.map enc) := by
  induction xs generalizing prev with
  | nil => cases prev <;> simp [Follow, Ascending]
  | cons x xs ih =>
    rw [Follow, ih, map_cons, ascending_cons_iff]
    rfl

/-- **A loop over items** reads back what is written, if each item is and follows the one before. -/
theorem decodeItems_answers [DecidablePred p] (items : List α)
    (hitem : ∀ x ∈ items, Answers item (p x) e x (enc x))
    (hhead : ∀ x ∈ items, ∃ b bs, enc x = b :: bs ∧ b ≠ structSeqEnd)
    (hfollow : Follow follows enc none items) :
    Answers (fun body => decodeItems follows item body.length none body) (∀ x ∈ items, p x) e items
      (items.flatMap enc ++ [structSeqEnd]) := by
  intro s
  refine Answers.of_rounds (decodeItems follows item) (fun x => some (enc x))
    (fun prev xs => (∀ x ∈ xs, Answers item (p x) e x (enc x) ∧
      ∃ b bs, enc x = b :: bs ∧ b ≠ structSeqEnd) ∧ Follow follows enc prev xs)
    (fun h => ⟨(forall_mem_cons.mp h.1).2, h.2.2⟩) (fun _ _ _ => rfl) ?_ items
    (length_lt_flatMap items (fun x hx => ?_) s) none
    ⟨fun x hx => ⟨hitem x hx, hhead x hx⟩, hfollow⟩ s
  · intro prev x xs h bound t
    obtain ⟨hx, b, bs, hb, hne⟩ := (forall_mem_cons.mp h.1).1
    have hround : decodeItems follows item (bound + 1) prev (enc x ++ t) =
        (item (enc x ++ t) >>= fun r =>
          if prev.all (follows · ((enc x ++ t).take r.2)) = false then .error .setNotCanonical
          else decodeItems follows item bound (some ((enc x ++ t).take r.2))
            ((enc x ++ t).drop r.2) >>= fun rs => .ok (r.1 :: rs.1, r.2 + rs.2)) := by
      rw [hb]
      exact if_neg hne
    rw [hround]
    split_ifs with hp
    · rw [(hx.reads hp).bind]
      simp only [take_left, drop_left]
      rw [if_neg (ne_false_of_eq_true h.2.1)]
    · rw [hx.bind_fails hp]
  · obtain ⟨b, bs, h, -⟩ := hhead x hx
    exact ⟨b, bs, h⟩

/-- A loop over items accepts nothing else. -/
theorem decodeItems_sound (hitem : Sound item P enc) (bound : ℕ) (prev : Option Bytes) :
    Sound (decodeItems follows item bound prev)
      (fun xs => (∀ x ∈ xs, P x) ∧ Follow follows enc prev xs)
      (fun xs => xs.flatMap enc ++ [structSeqEnd]) := by
  refine Sound.of_rounds (decodeItems follows item) (fun x => some (enc x))
    (fun prev xs => (∀ x ∈ xs, P x) ∧ Follow follows enc prev xs)
    (fun prev => ⟨by simp, trivial⟩) (fun _ _ _ h => by cases h) ?_ bound prev
  intro bound prev bytes xs k h
  cases bytes with
  | nil => cases h
  | cons b rest =>
    rw [decodeItems] at h
    split_ifs at h with hb
    · cases h
      exact .inl ⟨rest, by rw [hb], rfl, rfl⟩
    · obtain ⟨⟨x, ilen⟩, hx, h⟩ := bind_ok h
      obtain ⟨hP, s, hs, rfl⟩ := hitem _ _ _ hx
      simp only [hs, take_left, drop_left] at h
      split at h
      · cases h
      next hprev =>
      obtain ⟨⟨xs', used⟩, hxs, h⟩ := bind_ok h
      cases h
      exact .inr ⟨x, s, xs', used, hs, hxs, fun hPs => ⟨forall_mem_cons.mpr ⟨hP, hPs.1⟩,
        eq_true_of_ne_false hprev, hPs.2⟩, rfl, rfl⟩

/-! ## Objects -/

/-- One round of the loop over entries. -/
lemma decodeEntries_step {prevKey : Option Bytes} (entry : String × α)
    (hprev : prevKey.all (compare · (asBytes entry.1) = .lt) = true) (bound : ℕ) (t : Bytes) :
    decodeEntries item (bound + 1) prevKey (encodeEntry enc entry ++ t) =
      (item (enc entry.2 ++ t) >>= fun r =>
        decodeEntries item bound (some (asBytes entry.1)) ((enc entry.2 ++ t).drop r.2) >>=
          fun rs => .ok ((entry.1, r.1) :: rs.1,
            1 + (encodeTerminated (asBytes entry.1)).length + r.2 + rs.2)) := by
  have hkey : okOr (fromUtf8 (asBytes entry.1)) .badUtf8 = .ok entry.1 := by
    rw [fromUtf8_asBytes]
    rfl
  rw [encodeEntry, append_assoc, cons_append, decodeEntries,
    (decodeTerminated_faithful.reads (asBytes entry.1)).bind]
  simp only [if_neg (ne_false_of_eq_true hprev), hkey, drop_left]
  rfl

/-- The entries of an object with ascending keys are read back. -/
lemma decodeEntries_answers [DecidablePred p] (entries : List (String × α))
    (hitem : ∀ x ∈ entries, Answers item (p x.2) e x.2 (enc x.2))
    (hasc : Ascending compare (entries.map fun x => asBytes x.1)) :
    Answers (fun body => decodeEntries item body.length none body) (∀ x ∈ entries, p x.2) e
      entries (entries.flatMap (encodeEntry enc) ++ [structSeqEnd]) := by
  intro s
  refine Answers.of_rounds (decodeEntries item) (fun x => some (asBytes x.1))
    (fun prevKey xs => (∀ x ∈ xs, Answers item (p x.2) e x.2 (enc x.2)) ∧
      Ascending compare (prevKey.toList ++ xs.map fun x => asBytes x.1))
    (fun h => ⟨(forall_mem_cons.mp h.1).2, h.2.sublist (by simp)⟩) (fun _ _ _ => rfl) ?_ entries
    (length_lt_flatMap entries (fun x _ => ⟨_, _, rfl⟩) s) none ⟨hitem, hasc⟩ s
  intro prevKey x xs h bound t
  have hx := (forall_mem_cons.mp h.1).1
  have hlen : (encodeEntry enc x).length =
      1 + (encodeTerminated (asBytes x.1)).length + (enc x.2).length := by
    rw [encodeEntry, length_append, length_cons]
    omega
  rw [decodeEntries_step x (ascending_cons_iff.mp h.2).1, hlen]
  split_ifs with hp
  · rw [(hx.reads hp).bind, drop_left]
  · rw [hx.bind_fails hp]

/-- A loop over entries accepts nothing else. -/
lemma decodeEntries_sound (hitem : Sound item P enc) (bound : ℕ) (prevKey : Option Bytes) :
    Sound (decodeEntries item bound prevKey)
      (fun xs => (∀ x ∈ xs, P x.2) ∧
        Ascending compare (prevKey.toList ++ xs.map fun x => asBytes x.1))
      (fun xs => xs.flatMap (encodeEntry enc) ++ [structSeqEnd]) := by
  refine Sound.of_rounds (decodeEntries item) (fun x => some (asBytes x.1))
    (fun prevKey xs => (∀ x ∈ xs, P x.2) ∧
      Ascending compare (prevKey.toList ++ xs.map fun x => asBytes x.1))
    (fun prevKey => ⟨by simp, by cases prevKey <;> simp [Ascending]⟩) (fun _ _ _ h => by cases h) ?_
    bound prevKey
  intro bound prevKey bytes xs k h
  cases bytes with
  | nil => cases h
  | cons b rest =>
    rw [decodeEntries] at h
    by_cases hb : b = structSeqEnd
    · rw [if_pos hb] at h
      cases h
      exact .inl ⟨rest, by rw [hb], rfl, rfl⟩
    by_cases hmark : b = 0x18
    · rw [if_neg hb, if_pos hmark] at h
      obtain ⟨⟨keyBytes, klen⟩, hkeyBytes, h⟩ := bind_ok h
      obtain ⟨s, rfl, rfl⟩ := decodeTerminated_faithful.sound _ _ _ hkeyBytes
      simp only [drop_left] at h
      split at h
      · cases h
      next hprev =>
      obtain ⟨key, hkey, h⟩ := bind_ok h
      obtain rfl : asBytes key = keyBytes := asBytes_of_fromUtf8 (okOr_eq_ok.mp hkey)
      obtain ⟨⟨val, vlen⟩, hval, h⟩ := bind_ok h
      obtain ⟨hP, t, rfl, rfl⟩ := hitem _ _ _ hval
      obtain ⟨⟨xs', used⟩, hxs, h⟩ := bind_ok h
      rw [drop_left] at hxs
      cases h
      refine .inr ⟨(key, val), t, xs', used, ?_, hxs, fun hPs =>
        ⟨forall_mem_cons.mpr ⟨hP, hPs.1⟩,
          ascending_cons_iff.mpr ⟨eq_true_of_ne_false hprev, hPs.2⟩⟩, rfl, ?_⟩
      · simp [encodeEntry, hmark]
      · simp [encodeEntry]
        omega
    · rw [if_neg hb, if_neg hmark] at h
      cases h

end Kyzo

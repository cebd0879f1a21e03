import Mathlib.Data.List.GetD
import Kyzo.Value.Arena

/-!
# Entries of the arena

An entry is valid for a store when its inline prefix and length are those of the payload its span
addresses.  Comparing valid entries prefix-first is comparing payloads, so searches over runs of
valid entries are searches over the payload bytes.  The heap never changes the payload of a span it
holds.
-/

namespace Kyzo

open List Nat

/-! ## Prefix comparison -/

/-- The zero-padded prefix, by recursion on its width. -/
def padded : ℕ → Bytes → Bytes
  | 0, _ => []
  | w + 1, [] => 0x00 :: padded w []
  | w + 1, x :: a => x :: padded w a

/-- `prefix4` is the padded prefix of width four. -/
theorem prefix4_eq (a : Bytes) : prefix4 a = padded prefixLen a := by
  have hgen : ∀ (w : ℕ) (a : Bytes),
      a.take w ++ replicate (w - min a.length w) 0x00 = padded w a := by
    intro w
    induction w with
    | zero => simp [padded]
    | succ w ih =>
      rintro (_ | ⟨x, a⟩)
      · have hnil := ih []
        simp only [take_nil, nil_append, length_nil, Nat.zero_min, Nat.sub_zero]
          at hnil ⊢
        rw [replicate_succ, hnil, padded]
      · rw [take_succ_cons, cons_append, length_cons, padded, ← ih a]
        congr 3
        omega
  exact hgen prefixLen a

lemma compare_nil_eq (b : Bytes) : compare [] b = compare 0 b.length := by
  cases b with
  | nil => rfl
  | cons y b =>
    rfl

lemma compare_padded_nil_ne_gt (w : ℕ) (b : Bytes) : compare (padded w []) (padded w b) ≠ .gt := by
  induction w generalizing b with
  | zero => simp [padded]
  | succ w ih =>
    rcases b with _ | ⟨y, b⟩
    · simp
    · rw [padded, padded, List.compare_cons_cons]
      have hzero : compare (0x00 : UInt8) y ≠ .gt := by
        rw [compare_uint8, ne_eq, Nat.compare_eq_gt]
        simp
      cases hc : compare (0x00 : UInt8) y with
      | lt => simp
      | eq => simpa using ih b
      | gt => exact absurd hc hzero

lemma compare_padded_nil (w : ℕ) (b : Bytes) (h : compare (padded w []) (padded w b) ≠ .eq) :
    compare [] b = compare (padded w []) (padded w b) := by
  have hlt : compare (padded w []) (padded w b) = .lt := by
    cases hc : compare (padded w []) (padded w b) with
    | lt => rfl
    | eq => exact absurd hc h
    | gt => exact absurd hc (compare_padded_nil_ne_gt w b)
  rw [hlt]
  rcases b with _ | ⟨y, b⟩
  · exact absurd Std.ReflOrd.compare_self h
  · rfl

lemma compare_padded (w : ℕ) (a b : Bytes) :
    (compare (padded w a) (padded w b) ≠ .eq → compare a b = compare (padded w a) (padded w b)) ∧
    (compare (padded w a) (padded w b) = .eq → a.length ≤ w ∨ b.length ≤ w →
      compare a b = compare a.length b.length) := by
  have hnil_right : ∀ a : Bytes, compare a [] = compare a.length 0 := by
    intro a
    rw [Std.OrientedOrd.eq_swap, compare_nil_eq, Nat.compare_swap]
  induction w generalizing a b with
  | zero =>
    refine ⟨fun h => absurd rfl h, ?_⟩
    rintro - (h | h)
    · rw [eq_nil_of_length_eq_zero (le_zero.mp h)]
      exact compare_nil_eq b
    · rw [eq_nil_of_length_eq_zero (le_zero.mp h)]
      exact hnil_right a
  | succ w ih =>
    rcases a with _ | ⟨x, a⟩
    · exact ⟨compare_padded_nil _ b, fun _ _ => compare_nil_eq b⟩
    rcases b with _ | ⟨y, b⟩
    · refine ⟨?_, fun _ _ => hnil_right _⟩
      intro h
      rw [Std.OrientedOrd.eq_swap, ne_eq, Ordering.swap_eq_eq] at h
      rw [Std.OrientedOrd.eq_swap, compare_padded_nil _ _ h, ← Std.OrientedOrd.eq_swap]
    · obtain ⟨hne, heq⟩ := ih a b
      rw [padded, padded, List.compare_cons_cons, List.compare_cons_cons]
      cases hc : compare x y with
      | lt | gt => simp
      | eq =>
        refine ⟨by simpa using hne, ?_⟩
        intro h hlen
        have hlen' : compare (x :: a).length (y :: b).length = compare a.length b.length := by
          simp [length_cons, compare_eq_ite_lt]
        rw [hlen', ← heq (by simpa using h) (by simpa using hlen)]
        rfl

/-- **Prefix comparison is sound**: whatever the prefixes and lengths decide is the byte order. -/
theorem compare_of_cmpPrefixed {a b : Bytes} {o : Ordering}
    (h : cmpPrefixed (prefix4 a) a.length (prefix4 b) b.length = .decided o) :
    compare a b = o := by
  obtain ⟨hne, heq⟩ := compare_padded prefixLen a b
  rw [← prefix4_eq, ← prefix4_eq] at hne heq
  unfold cmpPrefixed at h
  cases hc : compare (prefix4 a) (prefix4 b) with
  | eq =>
    simp only [hc] at h
    split at h
    · next hlen =>
      cases h
      exact heq hc hlen
    · cases h
  | _ =>
    rw [hc] at h
    cases h
    rw [hne (by simp [hc]), hc]

/-! ## Valid entries -/

/-- The entry's inline prefix and length are those of its payload. -/
structure Entry.Valid (store : Store) (e : Entry) : Prop where
  /-- The prefix. -/
  pre_eq : e.pre = prefix4 (store e.span)
  /-- The length; the span lies within its chunk. -/
  len_eq : (store e.span).length = e.span.len
  /-- Lengths are 32-bit. -/
  len_le : e.span.len ≤ u32Max

/-- The payloads of entries. -/
def keys (store : Store) (entries : List Entry) : List Bytes := entries.map fun e => store e.span

section Entries

variable {store : Store}

lemma Entry.Valid.cmpEntry_eq {e o : Entry} (he : e.Valid store) (ho : o.Valid store) :
    e.cmpEntry o store = compare (store e.span) (store o.span) := by
  have hsound := @compare_of_cmpPrefixed (store e.span) (store o.span)
  unfold Entry.cmpEntry
  rw [he.pre_eq, ho.pre_eq, ← he.len_eq, ← ho.len_eq]
  split
  · next o' h => exact (hsound h).symm
  · rfl

variable {needle : Bytes}

lemma Entry.Valid.cmpNeedle_eq {e : Entry} (he : e.Valid store) (hn : needle.length ≤ u32Max) :
    e.cmpNeedle (prefix4 needle) needle store = compare (store e.span) needle := by
  have hsound := @compare_of_cmpPrefixed (store e.span) needle
  have hcast : asU32 needle.length = needle.length :=
    mod_eq_of_lt (lt_of_le_of_lt hn (by decide))
  unfold Entry.cmpNeedle
  rw [he.pre_eq, ← he.len_eq, hcast]
  split
  · next o' h => exact (hsound h).symm
  · rfl

/-- A lawful run: valid entries with ascending payloads. -/
structure Run.Lawful (store : Store) (r : Run) : Prop where
  valid : ∀ e ∈ r.entries, e.Valid store
  /-- Payloads ascend strictly. -/
  ascending : Ascending compare (keys store r.entries)

lemma Run.Lawful.search_eq {r : Run} (hr : r.Lawful store) (hn : needle.length ≤ u32Max) :
    (needle ∈ keys store r.entries →
      r.search (prefix4 needle) needle store = .ok (rankIn (keys store r.entries) needle)) ∧
    (needle ∉ keys store r.entries →
      r.search (prefix4 needle) needle store = .error (rankIn (keys store r.entries) needle)) :=
  binarySearchBy_keys (fun e he => (hr.valid e he).cmpNeedle_eq hn) hr.ascending

/-- All sealed payloads, run by run. -/
def runKeys (store : Store) (runs : List Run) : List Bytes :=
  runs.flatMap fun r => keys store r.entries

lemma searchRuns_eq {runs : List Run} (hruns : ∀ r ∈ runs, r.Lawful store)
    (hn : needle.length ≤ u32Max) : searchRuns runs (prefix4 needle) needle store =
      (rankIn (runKeys store runs) needle, decide (needle ∈ runKeys store runs)) := by
  -- The fold carries the rank and the verdict over the runs seen so far.
  have hfold : ∀ (rs : List Run) (acc : ℕ × Bool), (∀ r ∈ rs, r.Lawful store) →
      rs.foldl (fun acc run => addSearch acc (run.search (prefix4 needle) needle store)) acc =
      (acc.1 + rankIn (runKeys store rs) needle, acc.2 || decide (needle ∈ runKeys store rs)) := by
    intro rs
    induction rs with
    | nil => simp [runKeys, rankIn]
    | cons r rs ih =>
      intro acc hrs
      obtain ⟨hfound, hmissing⟩ := (hrs r (by simp)).search_eq hn
      have hsplit : runKeys store (r :: rs) = keys store r.entries ++ runKeys store rs := rfl
      rw [foldl_cons, ih _ fun r' hr' => hrs r' (by simp [hr']), hsplit, rankIn_append]
      by_cases hmem : needle ∈ keys store r.entries
      · rw [hfound hmem]
        simp [hmem, addSearch, add_assoc]
      · rw [hmissing hmem]
        simp [hmem, addSearch, add_assoc]
  rw [searchRuns, hfold runs (0, false) hruns]
  simp

end Entries

/-! ## The heap -/

namespace Heap

/-- The heap holds the span: its chunk exists or is the live one, and the span lies within it. -/
structure Holds (h : Heap) (span : Span) : Prop where
  /-- The chunk is at most the live chunk. -/
  chunk_le : span.chunk ≤ h.frozen.length
  /-- The span lies within its chunk. -/
  length_payload : (h.payload span).length = span.len

/-- Every span held before is held after, with the same payload. -/
def Extends (h h' : Heap) : Prop :=
  ∀ span, h.Holds span → h'.Holds span ∧ h'.payload span = h.payload span

lemma Extends.refl (h : Heap) : h.Extends h := fun _ hs => ⟨hs, rfl⟩

lemma Extends.trans {h₁ h₂ h₃ : Heap} (h₁₂ : h₁.Extends h₂) (h₂₃ : h₂.Extends h₃) :
    h₁.Extends h₃ := by
  intro span hs
  obtain ⟨hs₂, heq₂⟩ := h₁₂ span hs
  obtain ⟨hs₃, heq₃⟩ := h₂₃ span hs₂
  exact ⟨hs₃, heq₃.trans heq₂⟩

variable {h h' : Heap}

lemma Extends.of_payload_eq (hlen : h.frozen.length ≤ h'.frozen.length)
    (heq : ∀ span, h.Holds span → h'.payload span = h.payload span) : h.Extends h' := by
  intro span hs
  refine ⟨⟨hs.chunk_le.trans hlen, ?_⟩, heq span hs⟩
  rw [heq span hs]
  exact hs.length_payload

@[simp] lemma freezeLive_live (h : Heap) : h.freezeLive.live = [] := by
  unfold freezeLive
  split
  · assumption
  · rfl

lemma freezeLive_extends (h : Heap) : h.Extends h.freezeLive := by
  unfold freezeLive
  split
  · exact Extends.refl h
  · refine Extends.of_payload_eq (by simp) ?_
    intro span hs
    have hchunk := hs.chunk_le
    unfold payload
    split
    · rfl
    · rcases lt_or_eq_of_le hchunk with hlt | heq
      · -- The chunk was frozen before.
        rw [if_pos (by simp; omega), if_pos hlt, getD_append _ _ _ _ hlt]
      · -- The chunk was the live one: it is frozen at the index it was addressed by.
        rw [if_pos (by simp; omega), if_neg (by omega), getD_eq_getElem?_getD,
          getElem?_append_right (by omega), heq, Nat.sub_self]
        rfl

lemma slice_append {chunk more : Bytes} {off len : ℕ}
    (h : ((chunk.drop off).take len).length = len) :
    ((chunk ++ more).drop off).take len = (chunk.drop off).take len := by
  rw [length_take, length_drop] at h
  by_cases hlen : len = 0
  · simp [hlen]
  · rw [drop_append_of_le_length (by omega), take_append_of_le_length]
    rw [length_drop]
    omega

lemma extends_live (h : Heap) (value : Bytes) : h.Extends ⟨h.frozen, h.live ++ value⟩ := by
  refine Extends.of_payload_eq le_rfl ?_
  intro span hs
  have hlen := hs.length_payload
  unfold payload at hlen ⊢
  split
  · rfl
  · next hne =>
    rw [if_neg hne] at hlen
    split
    · rfl
    · next hchunk =>
      rw [if_neg hchunk] at hlen
      exact slice_append hlen

variable {span : Span}

/-- A span with bytes cannot address an empty live chunk. -/
theorem Holds.chunk_lt (hlive : h.live = []) (hs : h.Holds span) (hne : span.len ≠ 0) :
    span.chunk < h.frozen.length := by
  have hlen := hs.length_payload
  by_contra hge
  rw [payload, if_neg hge, hlive] at hlen
  simp at hlen
  omega

lemma extends_frozen (hlive : h.live = []) (value : Bytes) :
    h.Extends ⟨h.frozen ++ [value], h.live⟩ := by
  refine Extends.of_payload_eq (by simp) ?_
  intro span hs
  unfold payload
  split
  · rfl
  · next hne =>
    have hlt := hs.chunk_lt hlive hne
    rw [if_pos (by simp; omega), if_pos hlt, getD_append _ _ _ _ hlt]

lemma length_freezeLive (h : Heap) : h.freezeLive.frozen.length ≤ h.frozen.length + 1 := by
  unfold freezeLive
  split
  · exact le_succ _
  · simp

/-- What a push can do: it may freeze the live chunk first, and then refuses for capacity, adds a
chunk of its own or fills the live chunk. -/
theorem push_cases (h : Heap) (value : Bytes) : ∃ h₀ : Heap, h.Extends h₀ ∧
      ((u32Max < value.length ∨ u32Max ≤ h.frozen.length) ∧
          h.push value = (.error .extentOverflow, h₀) ∨
        value.length ≤ u32Max ∧ h₀.live = [] ∧
          h.push value = (.ok ⟨h₀.frozen.length, 0, value.length⟩,
            ⟨h₀.frozen ++ [value], h₀.live⟩) ∨
        value.length ≤ u32Max ∧
          h.push value = (.ok ⟨h₀.frozen.length, h₀.live.length, value.length⟩,
            ⟨h₀.frozen, h₀.live ++ value⟩)) := by
  by_cases hlen : u32Max < value.length
  · exact ⟨h, Extends.refl h, .inl ⟨.inl hlen, by rw [push, if_pos hlen]⟩⟩
  have hle : value.length ≤ u32Max := by omega
  have hfreeze := length_freezeLive h
  by_cases hbig : chunkSize ≤ value.length
  · refine ⟨h.freezeLive, freezeLive_extends h, ?_⟩
    by_cases hid : h.freezeLive.frozen.length ≤ u32Max
    · refine .inr (.inl ⟨hle, freezeLive_live h, ?_⟩)
      rw [push, if_neg hlen, if_pos hbig]
      simp [chunkId, if_pos hid]
    · refine .inl ⟨.inr (by omega), ?_⟩
      rw [push, if_neg hlen, if_pos hbig]
      simp [chunkId, if_neg hid]
  · obtain ⟨h₀, hh₀⟩ : ∃ h₀, h₀ =
        if chunkSize < h.live.length + value.length then h.freezeLive else h := ⟨_, rfl⟩
    have hext : h.Extends h₀ := by
      rw [hh₀]
      split
      · exact freezeLive_extends h
      · exact Extends.refl h
    -- The value fits the live chunk, which is empty after a freeze.
    have hfit : h₀.live.length + value.length ≤ chunkSize ∧
        h₀.frozen.length ≤ h.frozen.length + 1 := by
      rw [hh₀]
      split
      · rw [freezeLive_live, length_nil]
        exact ⟨by omega, hfreeze⟩
      · exact ⟨by omega, le_succ _⟩
    have hchunk : chunkSize ≤ u32Max := by decide
    refine ⟨h₀, hext, ?_⟩
    rw [push, if_neg hlen, if_neg hbig, ← hh₀]
    by_cases hid : h₀.frozen.length ≤ u32Max
    · simp only [chunkId, if_pos hid]
      exact .inr (.inr ⟨hle, if_neg (by omega)⟩)
    · refine .inl ⟨.inr (by omega), ?_⟩
      simp [chunkId, if_neg hid]

lemma push_extends (h : Heap) (value : Bytes) : h.Extends (h.push value).2 := by
  obtain ⟨h₀, hext, ⟨-, hpush⟩ | ⟨-, hlive, hpush⟩ | ⟨-, hpush⟩⟩ := push_cases h value <;>
    rw [hpush]
  · exact hext
  · exact hext.trans (extends_frozen hlive value)
  · exact hext.trans (extends_live h₀ value)

lemma push_ok {value : Bytes} (hp : h.push value = (.ok span, h')) :
    h'.Holds span ∧ h'.payload span = value ∧ value.length ≤ u32Max := by
  obtain ⟨h₀, hext, ⟨-, hpush⟩ | ⟨hle, hlive, hpush⟩ | ⟨hle, hpush⟩⟩ := push_cases h value <;>
    rw [hpush] at hp <;> cases hp
  all_goals
    refine (fun hpay => ⟨⟨by simp, congrArg length hpay⟩, hpay, hle⟩ : _ = value → _) ?_
    unfold payload
    split
    · next h0 => exact (eq_nil_of_length_eq_zero h0).symm
  · simp
  · simp

lemma push_error {value : Bytes} {e : Denial} (hp : h.push value = (.error e, h')) :
    e = .extentOverflow ∧ (u32Max < value.length ∨ u32Max ≤ h.frozen.length) := by
  obtain ⟨h₀, -, ⟨hcap, hpush⟩ | ⟨-, -, hpush⟩ | ⟨-, hpush⟩⟩ := push_cases h value <;>
    rw [hpush] at hp <;> cases hp
  exact ⟨rfl, hcap⟩

lemma frozenPayload_freezeLive (hs : h.Holds span) :
    frozenPayload h.freezeLive.frozen span = h.payload span := by
  obtain ⟨hs', heq⟩ := freezeLive_extends h span hs
  rw [← heq]
  unfold payload frozenPayload
  split
  · rfl
  · next hne => rw [if_pos (hs'.chunk_lt (freezeLive_live h) hne)]

end Heap

end Kyzo

import Kyzo.Lib.Except

/-!
# Fallible enumerations

A computation that lists items or fails, and what is known of it: when it succeeds, and which items
it then lists, in any order and number.  `Enumerates` says both, and its rules follow the ways
enumerations are put together.
-/

namespace Kyzo

open List

variable {ε α β : Type}

/-- What a fallible function lists over a list, one after the other. -/
def collectM (f : α → Except ε (List β)) (l : List α) : Except ε (List β) := do
  let found ← l.mapM f
  return found.flatten

/-- The computation succeeds exactly when `good` holds and lists exactly the items of `holds`. -/
structure Enumerates (x : Except ε (List α)) (good : Prop) (holds : α → Prop) : Prop where
  ok_iff : (∃ out, x = .ok out) ↔ good
  mem_iff : ∀ out, x = .ok out → ∀ a, a ∈ out ↔ holds a

namespace Enumerates

variable {x : Except ε (List α)} {good good' : Prop} {holds holds' : α → Prop}

lemma ok (l : List α) : Enumerates (.ok l : Except ε (List α)) True (· ∈ l) where
  ok_iff := ⟨fun _ => trivial, fun _ => ⟨l, rfl⟩⟩
  mem_iff := by
    rintro out hout a
    rw [Except.ok.inj hout]

lemma congr (h : Enumerates x good holds) (hgood : good ↔ good')
    (hholds : good → ∀ a, holds a ↔ holds' a) : Enumerates x good' holds' where
  ok_iff := h.ok_iff.trans hgood
  mem_iff out hout a := (h.mem_iff out hout a).trans (hholds (h.ok_iff.mp ⟨out, hout⟩) a)

lemma filter {l : List α} {p : α → Bool} (h : ∀ a ∈ l, p a = true ↔ holds a) :
    Enumerates (.ok (l.filter p) : Except ε (List α)) True (fun a => a ∈ l ∧ holds a) := by
  refine (ok _).congr Iff.rfl fun _ a => ?_
  rw [mem_filter]
  exact and_congr_right (h a)

/-- The items of a value. -/
theorem value {γ : Type} (x : Except ε γ) (f : γ → Except ε (List α)) (g : α → β) : Enumerates (do
      let c ← x
      return (← f c).map g) (∃ c items, x = .ok c ∧ f c = .ok items)
      (fun b => ∃ c items a, x = .ok c ∧ f c = .ok items ∧ a ∈ items ∧ g a = b) where
  ok_iff := by
    constructor
    · rintro ⟨out, h⟩
      obtain ⟨c, hc, h⟩ := bind_ok h
      obtain ⟨items, hitems, -⟩ := bind_ok h
      exact ⟨c, items, hc, hitems⟩
    · rintro ⟨c, items, hc, hitems⟩
      exact ⟨_, bind_eq_ok.mpr ⟨c, hc, bind_eq_ok.mpr ⟨items, hitems, rfl⟩⟩⟩
  mem_iff := by
    intro out h b
    obtain ⟨c, hc, h⟩ := bind_ok h
    obtain ⟨items, hitems, h⟩ := bind_ok h
    cases h
    rw [mem_map]
    constructor
    · rintro ⟨a, ha, hb⟩
      exact ⟨c, items, a, hc, hitems, ha, hb⟩
    · rintro ⟨c', items', a, hc', hitems', ha, hb⟩
      cases hc.symm.trans hc'
      cases hitems.symm.trans hitems'
      exact ⟨a, ha, hb⟩

section

variable (h : Enumerates x good holds)

include h

lemma bind {f : List α → Except ε (List β)} (next : Prop)
    {found : β → Prop} (hf : ∀ l, (∀ a, a ∈ l ↔ holds a) → Enumerates (f l) next found) :
    Enumerates (x >>= f) (good ∧ next) found where
  ok_iff := by
    rw [← h.ok_iff]
    constructor
    · rintro ⟨out, hout⟩
      obtain ⟨l, hl, hout⟩ := bind_ok hout
      exact ⟨⟨l, hl⟩, (hf l (h.mem_iff l hl)).ok_iff.mp ⟨out, hout⟩⟩
    · rintro ⟨⟨l, hl⟩, hnext⟩
      obtain ⟨out, hout⟩ := (hf l (h.mem_iff l hl)).ok_iff.mpr hnext
      exact ⟨out, bind_eq_ok.mpr ⟨l, hl, hout⟩⟩
  mem_iff := by
    intro out hout b
    obtain ⟨l, hl, hout⟩ := bind_ok hout
    exact (hf l (h.mem_iff l hl)).mem_iff out hout b

lemma map (f : α → β) :
    Enumerates (do return (← x).map f) good (fun b => ∃ a, holds a ∧ f a = b) := by
  refine (h.bind True fun l hl => ?_).congr (and_iff_left trivial) fun _ _ => Iff.rfl
  exact (ok (l.map f)).congr Iff.rfl fun _ b => by simp [mem_map, hl]

lemma collect {f : α → Except ε (List β)} {each : α → Prop}
    {found : α → β → Prop} (hf : ∀ a, holds a → Enumerates (f a) (each a) (found a)) :
    Enumerates (do collectM f (← x)) (good ∧ ∀ a, holds a → each a)
      (fun b => ∃ a, holds a ∧ found a b) := by
  refine h.bind _ fun l hl => ⟨⟨?_, fun heach => ?_⟩, ?_⟩
  · rintro ⟨out, hout⟩ a ha
    obtain ⟨ls, hls, -⟩ := bind_ok hout
    obtain ⟨bs, -, hbs⟩ := (mapM_mem hls).1 a ((hl a).mpr ha)
    exact (hf a ha).ok_iff.mp ⟨bs, hbs⟩
  · obtain ⟨ls, hls⟩ := mapM_exists fun a ha =>
      (hf a ((hl a).mp ha)).ok_iff.mpr (heach a ((hl a).mp ha))
    exact ⟨ls.flatten, bind_eq_ok.mpr ⟨ls, hls, rfl⟩⟩
  · intro out hout b
    obtain ⟨ls, hls, hflat⟩ := bind_ok hout
    cases hflat
    obtain ⟨hin, hfrom⟩ := mapM_mem hls
    rw [mem_flatten]
    constructor
    · rintro ⟨bs, hbs, hb⟩
      obtain ⟨a, ha, hfa⟩ := hfrom bs hbs
      have ha := (hl a).mp ha
      exact ⟨a, ha, ((hf a ha).mem_iff bs hfa b).mp hb⟩
    · rintro ⟨a, ha, hb⟩
      obtain ⟨bs, hbs, hfa⟩ := hin a ((hl a).mpr ha)
      exact ⟨bs, hbs, ((hf a ha).mem_iff bs hfa b).mpr hb⟩

lemma mapM {f : α → Except ε β} (hf : ∀ a, holds a → ∃ b, f a = .ok b) :
    Enumerates (do (← x).mapM f) good (fun b => ∃ a, holds a ∧ f a = .ok b) := by
  refine (h.bind True fun l hl => ⟨iff_of_true ?_ trivial, ?_⟩).congr
    (and_iff_left trivial) fun _ _ => Iff.rfl
  · exact mapM_exists fun a ha => hf a ((hl a).mp ha)
  · intro out hout b
    obtain ⟨hin, hfrom⟩ := mapM_mem hout
    constructor
    · intro hb
      obtain ⟨a, ha, hab⟩ := hfrom b hb
      exact ⟨a, (hl a).mp ha, hab⟩
    · rintro ⟨a, ha, hab⟩
      obtain ⟨b', hb', hab'⟩ := hin a ((hl a).mpr ha)
      rwa [Except.ok.inj (hab.symm.trans hab')]

end

lemma error (e : ε) (hgood : ¬ good) : Enumerates (.error e : Except ε (List α)) good holds where
  ok_iff := iff_of_false (fun ⟨_, h⟩ => by cases h) hgood
  mem_iff _ h := by cases h

end Enumerates

end Kyzo

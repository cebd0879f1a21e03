import Mathlib.Tactic

/-!
# Fallible computations

How a sequence of fallible steps succeeds: every step did.
-/

namespace Kyzo

open List Except

universe u

variable {ε : Type*} {α β γ : Type u} {f : α → Except ε β} {l : List α} {out : List β}
  {x : Except ε α} {b : β}

/-- A bind succeeds through both of its parts. -/
lemma bind_eq_ok : x >>= f = .ok b ↔ ∃ a, x = .ok a ∧ f a = .ok b := by
  rcases x with e | a
  · constructor
    · intro h
      cases h
    · rintro ⟨a, h, -⟩
      cases h
  · constructor
    · intro h
      exact ⟨a, rfl, h⟩
    · rintro ⟨a', h, hf⟩
      cases h
      exact hf

lemma bind_ok (h : x >>= f = .ok b) : ∃ a, x = .ok a ∧ f a = .ok b :=
  bind_eq_ok.mp h

lemma ok_bind (a : α) (f : α → Except ε β) : (ok a >>= f) = f a := rfl

lemma map_eq_ok {f : α → β} : x.map f = .ok b ↔ ∃ a, x = .ok a ∧ f a = b := by
  rcases x with e | a
  · constructor
    · intro h
      cases h
    · rintro ⟨a, h, -⟩
      cases h
  · constructor
    · intro h
      cases h
      exact ⟨a, rfl, rfl⟩
    · rintro ⟨a', h, hf⟩
      cases h
      exact congrArg ok hf

lemma mapError_eq_ok {ε' : Type*} {f : ε → ε'} {a : α} : x.mapError f = .ok a ↔ x = .ok a := by
  rcases x with e | a'
  · exact iff_of_false (fun h => by cases h) fun h => by cases h
  · exact ⟨fun h => congrArg ok (ok.inj h), fun h => congrArg ok (ok.inj h)⟩

lemma guard_eq_ok {ε α : Type} {p : Prop} [Decidable p] {err : ε} {x : Except ε α} {a : α} :
    (if p then throw err >>= fun _ : Unit => x else x) = .ok a ↔ ¬ p ∧ x = .ok a := by
  by_cases hp : p
  · rw [if_pos hp]
    exact ⟨fun h => (nomatch h), fun h => absurd hp h.1⟩
  · rw [if_neg hp]
    exact ⟨fun h => ⟨hp, h⟩, fun h => h.2⟩

/-- **A fold keeps** what each of its steps keeps. -/
lemma foldlM_keeps {ε σ α : Type} {P : σ → Prop} {f : σ → α → Except ε σ} {l : List α}
    (hstep : ∀ s, P s → ∀ a ∈ l, ∀ t, f s a = .ok t → P t) {s t : σ} (hs : P s)
    (h : l.foldlM f s = .ok t) : P t := by
  induction l generalizing s with
  | nil =>
    cases h
    exact hs
  | cons a l ih =>
    obtain ⟨u, hu, h⟩ := bind_ok h
    exact ih (fun s hs b hb => hstep s hs b (mem_cons_of_mem a hb))
      (hstep s hs a (.head _) u hu) h

/-- A fold succeeds if each of its steps does. -/
lemma foldlM_exists {ε σ α : Type} {f : σ → α → Except ε σ} {l : List α}
    (h : ∀ a ∈ l, ∀ s, ∃ t, f s a = .ok t) (s : σ) : ∃ t, l.foldlM f s = .ok t := by
  induction l generalizing s with
  | nil => exact ⟨s, rfl⟩
  | cons a l ih =>
    obtain ⟨ha, hl⟩ := forall_mem_cons.mp h
    obtain ⟨u, hu⟩ := ha s
    rw [foldlM_cons, hu]
    exact ih hl u

/-- A loop succeeds if every item does. -/
lemma forM_eq_ok {f : α → Except ε PUnit} : l.forM f = .ok ⟨⟩ ↔ ∀ a ∈ l, f a = .ok ⟨⟩ := by
  induction l with
  | nil => exact iff_of_true rfl fun a ha => absurd ha not_mem_nil
  | cons a l ih =>
    rw [forall_mem_cons, ← ih]
    refine (bind_eq_ok (x := f a)).trans ?_
    exact ⟨fun ⟨_, ha, hl⟩ => ⟨ha, hl⟩, fun h => ⟨⟨⟩, h⟩⟩

/-- A loop fails with the error of the first item that fails. -/
lemma forM_eq_error {f : α → Except ε PUnit} {e : ε}
    (h : l.forM f = .error e) : ∃ a ∈ l, f a = .error e := by
  induction l with
  | nil => cases h
  | cons a l ih =>
    have hcons : (a :: l).forM f = f a >>= fun _ => l.forM f := rfl
    rw [hcons] at h
    rcases ha : f a with e' | u
    · rw [ha] at h
      exact ⟨a, .head _, ha.trans h⟩
    · rw [ha] at h
      obtain ⟨b, hb, hfail⟩ := ih h
      exact ⟨b, .tail _ hb, hfail⟩

lemma map_bind_eq (x : Except ε α) (f : α → Except ε β) (g : β → γ) :
    (x >>= f).map g = x >>= fun a => (f a).map g := by
  cases x <;> rfl

lemma forall₂_eq_map {α β γ : Type*} {f : α → γ} {g : β → γ} {l : List α} {m : List β} :
    Forall₂ (fun a b => f a = g b) l m ↔ l.map f = m.map g := by
  rw [← forall₂_eq_eq_eq, forall₂_map_left_iff, forall₂_map_right_iff]

lemma forall₂_congr_iff {α β : Type*} {R S : α → β → Prop} (h : ∀ a b, R a b ↔ S a b)
    {l : List α} {m : List β} : Forall₂ R l m ↔ Forall₂ S l m := by
  rw [funext₂ fun a b => propext (h a b)]

/-- **A list of computations succeeds** when all of them do. -/
theorem mapM_eq_ok_iff : l.mapM f = .ok out ↔ l.map f = out.map .ok := by
  induction l generalizing out with
  | nil => cases out <;> simp [pure, Except.pure]
  | cons a l ih =>
    rw [mapM_cons, map_cons]
    cases out with
    | nil => cases f a <;> cases l.mapM f <;> simp [bind, Except.bind, pure, Except.pure]
    | cons b out =>
      rw [map_cons, cons.injEq, ← ih]
      cases f a <;> cases l.mapM f <;> simp [bind, Except.bind, pure, Except.pure]

lemma mapM_eq_some {α β : Type*} {f : α → Option β} {l : List α} {out : List β} :
    l.mapM f = some out ↔ l.map f = out.map some := by
  induction l generalizing out with
  | nil => cases out <;> simp
  | cons a l ih =>
    rw [mapM_cons, map_cons]
    cases out with
    | nil => cases f a <;> cases l.mapM f <;> simp
    | cons b out =>
      rw [map_cons, cons.injEq, ← ih]
      cases f a <;> cases l.mapM f <;> simp

lemma mapM_eq_ok {g : α → β} (h : ∀ a ∈ l, f a = .ok (g a)) : l.mapM f = .ok (l.map g) := by
  rw [mapM_eq_ok_iff, map_map]
  exact map_congr_left h

/-- The outcome of a list begins with that of its first item. -/
lemma mapM_cons_eq_ok {a : α} (h : (a :: l).mapM f = .ok out) :
    ∃ b out', f a = .ok b ∧ l.mapM f = .ok out' ∧ out = b :: out' := by
  obtain ⟨b, out', hout, hb, hrest⟩ := map_eq_cons_iff.mp (mapM_eq_ok_iff.mp h).symm
  exact ⟨b, out', hb.symm, mapM_eq_ok_iff.mpr hrest.symm, hout⟩

variable (h : l.mapM f = .ok out)
include h

/-- What went in has come out, and nothing else. -/
lemma mapM_mem : (∀ a ∈ l, ∃ b ∈ out, f a = .ok b) ∧ ∀ b ∈ out, ∃ a ∈ l, f a = .ok b := by
  have hmap := mapM_eq_ok_iff.mp h
  constructor
  · intro a ha
    obtain ⟨b, hb, hab⟩ := mem_map.mp (hmap ▸ mem_map_of_mem ha)
    exact ⟨b, hb, hab.symm⟩
  · exact fun b hb => mem_map.mp (hmap ▸ mem_map_of_mem hb)

omit h in
lemma mapM_exists (h : ∀ a ∈ l, ∃ b, f a = .ok b) : ∃ out, l.mapM f = .ok out := by
  induction l with
  | nil => exact ⟨[], rfl⟩
  | cons a l ih =>
    obtain ⟨⟨b, hb⟩, hl⟩ := forall_mem_cons.mp h
    obtain ⟨out, hout⟩ := ih hl
    refine ⟨b :: out, ?_⟩
    rw [mapM_cons, hb, hout]
    rfl

omit h in
/-- Related lists have related outcomes. -/
lemma mapM_forall₂ {R : α → γ → Prop} {S : β → γ → Prop} {ref : List γ} (h : List.Forall₂ R l ref)
    (hf : ∀ a c, R a c → ∃ b, f a = .ok b ∧ S b c) :
    ∃ out, l.mapM f = .ok out ∧ List.Forall₂ S out ref := by
  induction h with
  | nil => exact ⟨[], rfl, .nil⟩
  | cons hac _ ih =>
    obtain ⟨b, hb, hbc⟩ := hf _ _ hac
    obtain ⟨out, hout, hall⟩ := ih
    refine ⟨b :: out, ?_, .cons hbc hall⟩
    rw [mapM_cons, hb, hout]
    rfl

lemma mapM_length : out.length = l.length := by
  simpa using (congrArg length (mapM_eq_ok_iff.mp h)).symm

/-- Outcomes stand where their items stood. -/
lemma mapM_getElem? {i : ℕ} : out[i]? = some b ↔ ∃ a, l[i]? = some a ∧ f a = .ok b := by
  have hget := congrArg (·[i]?) (mapM_eq_ok_iff.mp h)
  simp only [getElem?_map] at hget
  rw [← Option.map_eq_some_iff, hget]
  simp

lemma mapM_map {g : α → Except ε γ} {c : β → γ}
    (hg : ∀ a ∈ l, ∀ b, f a = .ok b → g a = .ok (c b)) : l.mapM g = .ok (out.map c) := by
  induction l generalizing out with
  | nil =>
    cases h
    rfl
  | cons a l ih =>
    obtain ⟨b, out', hb, hout', rfl⟩ := mapM_cons_eq_ok h
    obtain ⟨ha, hl⟩ := forall_mem_cons.mp hg
    rw [mapM_cons, ha b hb, ih hout' hl]
    rfl

omit h

/-- A search whose test never fails is a search by a Boolean. -/
lemma anyM_eq_ok {ε α : Type} {f : α → Except ε Bool} {g : α → Bool} {l : List α}
    (h : ∀ a ∈ l, f a = .ok (g a)) : l.anyM f = .ok (l.any g) := by
  induction l with
  | nil => rfl
  | cons a l ih =>
    obtain ⟨ha, hl⟩ := forall_mem_cons.mp h
    rw [List.anyM, ha, any_cons]
    cases hg : g a with
    | true => rfl
    | false => exact ih hl

end Kyzo
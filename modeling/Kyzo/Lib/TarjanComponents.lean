import Kyzo.Lib.Tarjan

/-!
# The labels of the search are the components

The invariant of the search, one lemma for each change of its state, and what the labels say when
every node is done.
-/

namespace Kyzo

open List

namespace Tarjan

variable {V : Type*} (adj : V → List V)

/-- An edge of `x` that has been looked at: it stands before the position of the frame of `x`, if
`x` has one. -/
def Examined (frames : List (Frame V)) (x w : V) : Prop :=
  ∃ i, (adj x)[i]? = some w ∧ ∀ cursor, (x, cursor) ∈ frames → i < cursor

/-- **Invariant.** -/
structure Inv (s : State V) (frames : List (Frame V)) : Prop where
  num_le : ∀ v, s.num v ≤ s.id
  num_inj : ∀ u v, s.Opened u → s.Opened v → s.num u = s.num v → u = v
  onStack_iff : ∀ v, s.onStack v = true ↔ v ∈ s.stack
  stack_opened : ∀ v ∈ s.stack, s.Opened v
  stack_sorted : s.stack.Pairwise fun a b => s.num b < s.num a
  frames_stack : ∀ f ∈ frames, f.1 ∈ s.stack
  frames_sorted : frames.Pairwise fun a b => s.num b.1 < s.num a.1
  /-- A frame reaches what was put on the stack after it, -/
  frame_reach : ∀ f ∈ frames, ∀ x ∈ s.stack, s.num f.1 ≤ s.num x → Reach adj f.1 x
  /-- and everything on the stack was put there after some frame. -/
  frame_below : ∀ x ∈ s.stack, ∃ f ∈ frames, s.num f.1 ≤ s.num x
  low_le : ∀ x ∈ s.stack, s.low x ≤ s.num x
  /-- A low link is the number of a node on the stack that is reached, -/
  low_reach : ∀ x ∈ s.stack, ∃ w ∈ s.stack, s.num w = s.low x ∧ Reach adj x w
  /-- and an earlier one if the node has closed. -/
  low_lt : ∀ x ∈ s.stack, (∀ f ∈ frames, f.1 ≠ x) → s.low x < s.num x
  examined_opened : ∀ x w, s.Opened x → Examined adj frames x w → s.Opened w
  /-- An edge to a node on the stack is accounted for by a low link at or above the frame it belongs
  to. -/
  examined_low : ∀ x ∈ s.stack, ∀ w ∈ s.stack, Examined adj frames x w →
    ∃ q ∈ frames, (∀ p ∈ frames, s.num p.1 ≤ s.num x → s.num p.1 ≤ s.num q.1) ∧
      s.low q.1 ≤ s.num w
  done_succ : ∀ x, s.Done x → ∀ w ∈ adj x, s.Done w
  /-- A label is the number of a node of the component, -/
  done_label : ∀ x, s.Done x → ∃ r, s.Done r ∧ s.num r = s.low x ∧ Reach adj x r ∧ Reach adj r x
  /-- and a component has one label. -/
  done_low : ∀ x y, s.Done x → s.Done y → Reach adj x y → Reach adj y x → s.low x = s.low y

variable {adj} {s : State V} {frames : List (Frame V)} {v w : V} {cursor : ℕ}

lemma inv_init : Inv adj (.init : State V) [] where
  num_le _ := le_rfl
  num_inj _ _ h := absurd rfl h
  onStack_iff _ := by simp [State.init]
  stack_opened _ h := absurd h not_mem_nil
  stack_sorted := .nil
  frames_stack _ h := absurd h not_mem_nil
  frames_sorted := .nil
  frame_reach _ h := absurd h not_mem_nil
  frame_below _ h := absurd h not_mem_nil
  low_le _ h := absurd h not_mem_nil
  low_reach _ h := absurd h not_mem_nil
  low_lt _ h := absurd h not_mem_nil
  examined_opened _ _ h := absurd rfl h
  examined_low _ h := absurd h not_mem_nil
  done_succ _ h := absurd rfl h.1
  done_label _ h := absurd rfl h.1
  done_low _ _ h := absurd rfl h.1

variable {frames' : List (Frame V)}

namespace Inv

variable {x y : V}

lemma done_of_reach (h : Inv adj s frames) (hx : s.Done x) (hreach : Reach adj x y) : s.Done y := by
  induction hreach with
  | refl => exact hx
  | tail _ hedge ih => exact h.done_succ _ ih _ hedge

/-! ## Looking at an edge -/

lemma examined_advance (above : List (Frame V)) (hnext : (adj v)[cursor]? = some w)
    (hex : Examined adj (above ++ (v, cursor + 1) :: frames) x y) :
    Examined adj (above ++ (v, cursor) :: frames) x y ∨ x = v ∧ y = w := by
  obtain ⟨i, hi, hbefore⟩ := hex
  by_cases hnew : x = v ∧ i = cursor
  · obtain ⟨rfl, rfl⟩ := hnew
    exact .inr ⟨rfl, Option.some.inj (hi.symm.trans hnext)⟩
  · refine .inl ⟨i, hi, fun c hc => ?_⟩
    rcases mem_append.mp hc with hc | hc
    · exact hbefore c (mem_append_left _ hc)
    · rcases mem_cons.mp hc with heq | hc
      · cases heq
        have hle := Nat.lt_succ_iff.mp (hbefore _ (mem_append_right _ (.head _)))
        exact lt_of_le_of_ne hle fun heq => hnew ⟨rfl, heq⟩
      · exact hbefore c (mem_append_right _ (.tail _ hc))

/-- Frames over the same nodes, where every edge that is looked at for the first time is accounted
for. -/
theorem reframe (h : Inv adj s frames) (hnodes : frames'.map Prod.fst = frames.map Prod.fst)
    (hex : ∀ x y, Examined adj frames' x y → Examined adj frames x y ∨ s.Opened y ∧
      (y ∈ s.stack → ∃ q ∈ frames, (∀ p ∈ frames, s.num p.1 ≤ s.num x → s.num p.1 ≤ s.num q.1) ∧
        s.low q.1 ≤ s.num y)) : Inv adj s frames' := by
  have hmem : ∀ u, (∃ f ∈ frames', f.1 = u) ↔ ∃ f ∈ frames, f.1 = u := by
    intro u
    rw [← mem_map, ← mem_map, hnodes]
  have hall : ∀ P : V → Prop, (∀ f ∈ frames, P f.1) → ∀ f ∈ frames', P f.1 := by
    intro P hP f hf
    obtain ⟨g, hg, heq⟩ := (hmem f.1).mp ⟨f, hf, rfl⟩
    exact heq ▸ hP g hg
  have hsome : ∀ P : V → Prop, (∃ f ∈ frames, P f.1) → ∃ f ∈ frames', P f.1 := by
    rintro P ⟨f, hf, hP⟩
    obtain ⟨g, hg, heq⟩ := (hmem f.1).mpr ⟨f, hf, rfl⟩
    exact ⟨g, hg, heq ▸ hP⟩
  refine { h with
    frames_stack := hall (· ∈ s.stack) h.frames_stack
    frames_sorted := ?_
    frame_reach := hall (fun u => ∀ x ∈ s.stack, s.num u ≤ s.num x → Reach adj u x) h.frame_reach
    frame_below := fun x hx => hsome (s.num · ≤ s.num x) (h.frame_below x hx)
    low_lt := ?_, examined_opened := ?_, examined_low := ?_ }
  · have hsorted : (frames.map Prod.fst).Pairwise fun a b => s.num b < s.num a :=
      pairwise_map.mpr h.frames_sorted
    exact pairwise_map.mp (hnodes ▸ hsorted)
  · intro x hx hfree
    refine h.low_lt x hx fun f hf heq => ?_
    obtain ⟨g, hg, hgx⟩ := hsome (· = x) ⟨f, hf, heq⟩
    exact hfree g hg hgx
  · exact fun x y hx hxy => (hex x y hxy).elim (h.examined_opened x y hx) And.left
  · intro x hx y hy hxy
    obtain ⟨q, hq, habove, hle⟩ := (hex x y hxy).elim (h.examined_low x hx y hy) (·.2 hy)
    obtain ⟨q', hq', hbest, hle'⟩ := hsome (fun u => (∀ p ∈ frames, s.num p.1 ≤ s.num x →
      s.num p.1 ≤ s.num u) ∧ s.low u ≤ s.num y) ⟨q, hq, habove, hle⟩
    exact ⟨q', hq', hall (fun u => s.num u ≤ s.num x → s.num u ≤ s.num q'.1) hbest, hle'⟩

lemma advance (h : Inv adj s ((v, cursor) :: frames)) (hnext : (adj v)[cursor]? = some w)
    (hopen : s.Opened w) (hlow : w ∈ s.stack → s.low v ≤ s.num w) :
    Inv adj s ((v, cursor + 1) :: frames) := by
  refine h.reframe rfl fun x y hex => (examined_advance [] hnext hex).imp_right ?_
  rintro ⟨rfl, rfl⟩
  exact ⟨hopen, fun hw => ⟨_, .head _, fun p _ hpx => hpx, hlow hw⟩⟩

/-! ## Lowering a low link -/

lemma lower [DecidableEq V] (h : Inv adj s frames) (hv : v ∈ s.stack) (hw : w ∈ s.stack)
    (hreach : Reach adj v w) : Inv adj (s.lower v w) frames := by
  have hle : ∀ x, (s.lower v w).low x ≤ s.low x := by
    intro x
    by_cases hx : x = v
    · subst hx
      simp
    · rw [s.lower_low_of_ne w hx]
  have hdone : ∀ x, s.Done x → (s.lower v w).low x = s.low x := by
    intro x hx
    have hne : x ≠ v := by
      rintro rfl
      exact hx.2 hv
    exact s.lower_low_of_ne w hne
  refine { h with
    low_le := ?_, low_reach := ?_, low_lt := ?_, examined_low := ?_, done_label := ?_,
    done_low := ?_ }
  · exact fun x hx => (hle x).trans (h.low_le x hx)
  · intro x hx
    by_cases hxv : x = v
    · subst hxv
      rcases min_choice (s.low x) (s.low w) with hmin | hmin
      · obtain ⟨y, hy, hnum, hxy⟩ := h.low_reach x hx
        exact ⟨y, hy, by simpa [hmin] using hnum, hxy⟩
      · obtain ⟨y, hy, hnum, hwy⟩ := h.low_reach w hw
        exact ⟨y, hy, by simpa [hmin] using hnum, hreach.trans hwy⟩
    · obtain ⟨y, hy, hnum, hxy⟩ := h.low_reach x hx
      exact ⟨y, hy, hnum.trans (s.lower_low_of_ne w hxv).symm, hxy⟩
  · exact fun x hx hfree => (hle x).trans_lt (h.low_lt x hx hfree)
  · intro x hx y hy hex
    obtain ⟨q, hq, habove, hq'⟩ := h.examined_low x hx y hy hex
    exact ⟨q, hq, habove, (hle q.1).trans hq'⟩
  · intro x hx
    obtain ⟨r, hr, hnum, hreaches⟩ := h.done_label x hx
    exact ⟨r, hr, hnum.trans (hdone x hx).symm, hreaches⟩
  · intro x y hx hy hxy hyx
    rw [hdone x hx, hdone y hy]
    exact h.done_low x y hx hy hxy hyx

/-! ## Opening a node -/

lemma opening [DecidableEq V] (h : Inv adj s frames) (hopen : ¬s.Opened v)
    (hreach : ∀ f ∈ frames, Reach adj f.1 v) : Inv adj (s.opening v) ((v, 0) :: frames) := by
  have hne : ∀ x, s.Opened x → x ≠ v := by
    rintro x hx rfl
    exact hopen hx
  have hnum : ∀ x, s.Opened x → (s.opening v).num x = s.num x :=
    fun x hx => s.opening_num_of_ne (hne x hx)
  have hlow : ∀ x, s.Opened x → (s.opening v).low x = s.low x :=
    fun x hx => s.opening_low_of_ne (hne x hx)
  have hlt : ∀ x, s.Opened x → (s.opening v).num x < (s.opening v).num v := by
    intro x hx
    rw [hnum x hx, s.opening_num_self]
    exact Nat.lt_succ_of_le (h.num_le x)
  have hold := h.stack_opened
  have hframes : ∀ f ∈ frames, s.Opened f.1 := fun f hf => hold _ (h.frames_stack f hf)
  have hdone : ∀ x, (s.opening v).Done x ↔ s.Done x := by
    intro x
    constructor
    · rintro ⟨hx, hstack⟩
      have hxv : x ≠ v := fun heq => hstack (heq ▸ (.head _))
      exact ⟨(s.opened_opening.mp hx).resolve_left hxv, fun hmem => hstack (.tail _ hmem)⟩
    · rintro ⟨hx, hstack⟩
      refine ⟨s.opened_opening.mpr (.inr hx), fun hmem => ?_⟩
      exact hstack ((mem_cons.mp hmem).resolve_left (hne x hx))
  -- No edge of the new node has been looked at.
  have hexam : ∀ x y, Examined adj ((v, 0) :: frames) x y → x ≠ v ∧ Examined adj frames x y := by
    rintro x y ⟨i, hi, hbefore⟩
    refine ⟨?_, i, hi, fun c hc => hbefore c (.tail _ hc)⟩
    rintro rfl
    exact absurd (hbefore 0 (.head _)) (Nat.not_lt_zero i)
  refine
    { num_le := fun x => ?_, num_inj := fun x y hx hy heq => ?_, onStack_iff := fun x => ?_
      stack_opened := forall_mem_cons.mpr
        ⟨s.opened_opening.mpr (.inl rfl), fun x hx => s.opened_opening.mpr (.inr (hold x hx))⟩
      stack_sorted := pairwise_cons.mpr ⟨fun x hx => hlt x (hold x hx), ?_⟩
      frames_stack := forall_mem_cons.mpr ⟨.head _, fun f hf => .tail _ (h.frames_stack f hf)⟩
      frames_sorted := pairwise_cons.mpr ⟨fun f hf => hlt f.1 (hframes f hf), ?_⟩
      frame_reach := fun f hf x hx hle => ?_
      frame_below := forall_mem_cons.mpr ⟨⟨_, .head _, le_rfl⟩, fun x hx => ?_⟩
      low_le := forall_mem_cons.mpr ⟨by simp, fun x hx => ?_⟩
      low_reach := forall_mem_cons.mpr ⟨⟨v, .head _, by simp, .refl⟩, fun x hx => ?_⟩
      low_lt := forall_mem_cons.mpr
        ⟨fun hfree => absurd rfl (hfree _ (.head _)), fun x hx hfree => ?_⟩
      examined_opened := fun x y hx hxy => ?_, examined_low := fun x hx y hy hxy => ?_
      done_succ := fun x hx y hy => (hdone y).mpr (h.done_succ x ((hdone x).mp hx) y hy)
      done_label := fun x hx => ?_, done_low := fun x y hx hy => ?_ }
  · by_cases hx : x = v
    · subst hx
      exact (s.opening_num_self x).le
    · rw [s.opening_num_of_ne hx]
      exact (h.num_le x).trans (Nat.le_succ _)
  · rcases s.opened_opening.mp hx with rfl | hx' <;> rcases s.opened_opening.mp hy with rfl | hy'
    · rfl
    · exact absurd heq (hlt y hy').ne'
    · exact absurd heq (hlt x hx').ne
    · rw [hnum x hx', hnum y hy'] at heq
      exact h.num_inj x y hx' hy' heq
  · by_cases hx : x = v
    · simp [State.opening, hx]
    · simp [State.opening, hx, h.onStack_iff]
  · refine h.stack_sorted.imp_of_mem fun {a b} ha hb hab => ?_
    rwa [hnum a (hold a ha), hnum b (hold b hb)]
  · refine h.frames_sorted.imp_of_mem fun {a b} ha hb hab => ?_
    rwa [hnum a.1 (hframes a ha), hnum b.1 (hframes b hb)]
  · rcases mem_cons.mp hf with rfl | hf' <;> rcases mem_cons.mp hx with rfl | hx'
    · exact .refl
    · exact absurd hle (not_le.mpr (hlt x (hold x hx')))
    · exact hreach f hf'
    · rw [hnum f.1 (hframes f hf'), hnum x (hold x hx')] at hle
      exact h.frame_reach f hf' x hx' hle
  · obtain ⟨f, hf, hle⟩ := h.frame_below x hx
    refine ⟨f, .tail _ hf, ?_⟩
    rwa [hnum f.1 (hframes f hf), hnum x (hold x hx)]
  · rw [hlow x (hold x hx), hnum x (hold x hx)]
    exact h.low_le x hx
  · obtain ⟨y, hy, heq, hxy⟩ := h.low_reach x hx
    refine ⟨y, .tail _ hy, ?_, hxy⟩
    rwa [hlow x (hold x hx), hnum y (hold y hy)]
  · rw [hlow x (hold x hx), hnum x (hold x hx)]
    exact h.low_lt x hx fun f hf => hfree f (.tail _ hf)
  · obtain ⟨hxv, hxy⟩ := hexam x y hxy
    exact s.opened_opening.mpr
      (.inr (h.examined_opened x y ((s.opened_opening.mp hx).resolve_left hxv) hxy))
  · obtain ⟨hxv, hxy⟩ := hexam x y hxy
    have hxs : x ∈ s.stack := (mem_cons.mp hx).resolve_left hxv
    have hys : y ∈ s.stack := (mem_cons.mp hy).resolve_left
      (hne y (h.examined_opened x y (hold x hxs) hxy))
    obtain ⟨q, hq, habove, hle⟩ := h.examined_low x hxs y hys hxy
    refine ⟨q, .tail _ hq, fun p hp hpx => ?_, ?_⟩
    · rcases mem_cons.mp hp with rfl | hp
      · exact absurd hpx (not_le.mpr (hlt x (hold x hxs)))
      · rw [hnum _ (hframes p hp), hnum x (hold x hxs)] at hpx
        rw [hnum _ (hframes p hp), hnum _ (hframes q hq)]
        exact habove p hp hpx
    · rwa [hlow _ (hframes q hq), hnum y (hold y hys)]
  · have hx := (hdone x).mp hx
    obtain ⟨r, hr, heq, hreaches⟩ := h.done_label x hx
    exact ⟨r, (hdone r).mpr hr, by rw [hnum r hr.1, hlow x hx.1, heq], hreaches⟩
  · rw [hdone] at hx hy
    rw [hlow x hx.1, hlow y hy.1]
    exact h.done_low x y hx hy

/-! ## Closing a node -/

section Close

variable (h : Inv adj s ((v, cursor) :: frames)) (hend : (adj v)[cursor]? = none)

include h

lemma num_lt_top {f : Frame V} (hf : f ∈ frames) : s.num f.1 < s.num v :=
  (pairwise_cons.mp h.frames_sorted).1 f hf

lemma top_ne {f : Frame V} (hf : f ∈ frames) : f.1 ≠ v :=
  fun heq => absurd (h.num_lt_top hf) (heq ▸ lt_irrefl _)

lemma top_mem : v ∈ s.stack := h.frames_stack _ (.head _)

include hend

lemma examined_close (hex : Examined adj frames x y) :
    Examined adj ((v, cursor) :: frames) x y := by
  obtain ⟨i, hi, hbefore⟩ := hex
  refine ⟨i, hi, fun c hc => ?_⟩
  rcases mem_cons.mp hc with heq | hc
  · obtain ⟨rfl, rfl⟩ := Prod.mk.inj heq
    have hlen : (adj x).length ≤ c := getElem?_eq_none_iff.mp hend
    exact (List.getElem_of_getElem? hi).1.trans_le hlen
  · exact hbefore c hc

/-- **A node that roots no component closes** after it has passed its low link on. -/
theorem close_below (hlow : s.low v < s.num v) (hparent : ∀ f ∈ frames.head?, s.low f.1 ≤ s.low v) :
    Inv adj s frames := by
  -- The low link leads to a frame below.
  obtain ⟨y, hy, hynum, -⟩ := h.low_reach v h.top_mem
  have hbelow : ∃ f ∈ frames, s.num f.1 < s.num v := by
    obtain ⟨f, hf, hle⟩ := h.frame_below y hy
    have hlt : s.num f.1 < s.num v := by omega
    rcases mem_cons.mp hf with rfl | hf
    · exact absurd hlt (lt_irrefl _)
    · exact ⟨f, hf, hlt⟩
  obtain ⟨parent, rest, rfl⟩ : ∃ parent rest, frames = parent :: rest := by
    obtain ⟨f, hf, -⟩ := hbelow
    exact exists_cons_of_ne_nil (ne_nil_of_mem hf)
  have hsorted := (pairwise_cons.mp h.frames_sorted).2
  refine { h with
    frames_stack := fun f hf => h.frames_stack f (.tail _ hf)
    frames_sorted := hsorted
    frame_reach := fun f hf => h.frame_reach f (.tail _ hf)
    frame_below := ?_, low_lt := ?_
    examined_opened := fun x y hx hex => h.examined_opened x y hx (h.examined_close hend hex)
    examined_low := ?_ }
  · intro x hx
    obtain ⟨f, hf, hle⟩ := h.frame_below x hx
    rcases mem_cons.mp hf with rfl | hf
    · obtain ⟨g, hg, hlt⟩ := hbelow
      exact ⟨g, hg, hlt.le.trans hle⟩
    · exact ⟨f, hf, hle⟩
  · intro x hx hfree
    by_cases hxv : x = v
    · exact hxv ▸ hlow
    · refine h.low_lt x hx fun f hf => ?_
      rcases mem_cons.mp hf with rfl | hf
      · exact Ne.symm hxv
      · exact hfree f hf
  · intro x hx y hy hex
    obtain ⟨q, hq, habove, hle⟩ := h.examined_low x hx y hy (h.examined_close hend hex)
    rcases mem_cons.mp hq with rfl | hq
    · -- The edge was accounted for by the node that closes, and now is by its parent.
      refine ⟨parent, .head _, fun p hp _ => ?_, (hparent parent rfl).trans hle⟩
      rcases mem_cons.mp hp with rfl | hp
      · exact le_rfl
      · exact ((pairwise_cons.mp hsorted).1 p hp).le
    · exact ⟨q, hq, fun p hp => habove p (.tail _ hp), hle⟩

/-! ### A root and its component -/

omit hend in
lemma no_frame {x : V} (hle : s.num v ≤ s.num x) {c : ℕ} (hc : (x, c) ∈ (v, cursor) :: frames) :
    x = v := by
  rcases mem_cons.mp hc with heq | hc
  · exact (Prod.mk.inj heq).1
  · exact absurd (h.num_lt_top hc) (not_lt.mpr hle)

variable (hroot : s.low v = s.num v)

include hroot

lemma component_succ (hx : x ∈ s.stack) (hle : s.num v ≤ s.num x) (hxy : y ∈ adj x) :
    y ∈ s.stack ∧ s.num v ≤ s.num y ∨ s.Done y := by
  have hex : Examined adj ((v, cursor) :: frames) x y := by
    obtain ⟨i, hi⟩ := mem_iff_getElem?.mp hxy
    refine h.examined_close hend ⟨i, hi, fun c hc => ?_⟩
    obtain rfl := h.no_frame hle (.tail _ hc)
    exact absurd rfl (h.top_ne hc)
  have hopen := h.examined_opened x y (h.stack_opened x hx) hex
  by_cases hy : y ∈ s.stack
  · obtain ⟨q, hq, habove, hqle⟩ := h.examined_low x hx y hy hex
    obtain rfl := h.no_frame (habove _ (.head _) hle) hq
    exact .inl ⟨hy, hroot ▸ hqle⟩
  · exact .inr ⟨hopen, hy⟩

lemma component_closed (hx : x ∈ s.stack) (hle : s.num v ≤ s.num x)
    (hxy : Reach adj x y) : y ∈ s.stack ∧ s.num v ≤ s.num y ∨ s.Done y := by
  induction hxy with
  | refl => exact .inl ⟨hx, hle⟩
  | tail _ hedge ih =>
    rcases ih with ⟨hmem, hle⟩ | hdone
    · exact h.component_succ hend hroot hmem hle hedge
    · exact .inr (h.done_succ _ hdone _ hedge)

lemma component_reach {x : V} (hx : x ∈ s.stack) (hle : s.num v ≤ s.num x) : Reach adj x v := by
  -- Low links lead to smaller numbers until the root is met.
  induction hn : s.num x using Nat.strong_induction_on generalizing x with
  | _ n ih =>
    subst hn
    by_cases hxv : x = v
    · exact hxv ▸ .refl
    · have hlt : s.low x < s.num x := by
        refine h.low_lt x hx fun f hf heq => hxv ?_
        exact h.no_frame hle (c := f.2) (heq ▸ hf)
      obtain ⟨w, hw, hnum, hxw⟩ := h.low_reach x hx
      rcases h.component_closed hend hroot hx hle hxw with ⟨-, hwle⟩ | hdone
      · exact hxw.trans (ih _ (hnum ▸ hlt) hw hwle rfl)
      · exact absurd hw hdone.2

/-- **A root closes**: its component is labelled with its number. -/
theorem close_root [DecidableEq V] : Inv adj (s.pop v) frames := by
  obtain ⟨above, rest, hstack⟩ := append_of_mem h.top_mem
  obtain ⟨-, hvrest, hcross⟩ := pairwise_append.mp (hstack ▸ h.stack_sorted)
  obtain ⟨hrest, hsorted⟩ := pairwise_cons.mp hvrest
  have habove : ∀ x ∈ above, s.num v < s.num x := fun x hx => hcross x hx v (.head _)
  -- The component is what was put on the stack since the root.
  have hsplit : ∀ x, x ∈ s.stack ↔ x ∈ above ++ [v] ∨ x ∈ rest := by
    intro x
    rw [hstack, append_cons, mem_append]
  have hle : ∀ x, x ∈ above ++ [v] → s.num v ≤ s.num x := by
    intro x hx
    rcases mem_append.mp hx with hx | hx
    · exact (habove x hx).le
    · exact (mem_singleton.mp hx ▸ le_rfl)
  have hcomp : ∀ x ∈ s.stack, s.num v ≤ s.num x → x ∈ above ++ [v] := fun x hx hvx =>
    ((hsplit x).mp hx).resolve_right fun hx => absurd (hrest x hx) (not_lt.mpr hvx)
  have hmem : ∀ x ∈ rest, x ∈ s.stack := fun x hx => (hsplit x).mpr (.inr hx)
  have hbelow : ∀ x ∈ s.stack, s.num x < s.num v → x ∈ rest := fun x hx hlt =>
    ((hsplit x).mp hx).resolve_left fun hx => absurd hlt (not_lt.mpr (hle x hx))
  have hout : ∀ x ∈ rest, x ∉ above ++ [v] :=
    fun x hx hin => absurd (hrest x hx) (not_lt.mpr (hle x hin))
  have hundone : ∀ x, s.Done x → x ∉ above ++ [v] :=
    fun x hx hin => hx.2 ((hsplit x).mpr (.inl hin))
  have hpop : s.pop v = { s with
      stack := rest
      low := fun x => if x ∈ above ++ [v] then s.num v else s.low x
      onStack := fun x => if x ∈ above ++ [v] then false else s.onStack x } := by
    rw [State.pop, hstack, State.popTo_eq _ _ _ fun hv => lt_irrefl _ (habove v hv), hroot]
  have hdone : ∀ x, s.Opened x ∧ x ∉ rest ↔ s.Done x ∨ x ∈ above ++ [v] := by
    intro x
    constructor
    · rintro ⟨hx, hxr⟩
      by_cases hxs : x ∈ s.stack
      · exact .inr (((hsplit x).mp hxs).resolve_right hxr)
      · exact .inl ⟨hx, hxs⟩
    · rintro (⟨hx, hxs⟩ | hx)
      · exact ⟨hx, fun hin => hxs (hmem x hin)⟩
      · exact ⟨h.stack_opened x ((hsplit x).mpr (.inl hx)), fun hin => hout x hin hx⟩
  rw [hpop]
  refine { h with
    onStack_iff := fun x => ?_, stack_opened := fun x hx => h.stack_opened x (hmem x hx)
    stack_sorted := hsorted
    frames_stack := fun f hf => hbelow f.1 (h.frames_stack f (.tail _ hf)) (h.num_lt_top hf)
    frames_sorted := (pairwise_cons.mp h.frames_sorted).2
    frame_reach := fun f hf x hx => h.frame_reach f (.tail _ hf) x (hmem x hx)
    frame_below := fun x hx => ?_, low_le := fun x hx => ?_, low_reach := fun x hx => ?_
    low_lt := fun x hx hfree => ?_
    examined_opened := fun x y hx hex => h.examined_opened x y hx (h.examined_close hend hex)
    examined_low := fun x hx y hy hex => ?_, done_succ := fun x hx y hxy => ?_
    done_label := fun x hx => ?_, done_low := fun x y hx hy hxy hyx => ?_ }
  · simp only
    split_ifs with hx
    · simpa using fun hin => hout x hin hx
    · rw [h.onStack_iff, hsplit, or_iff_right hx]
  · obtain ⟨f, hf, hfx⟩ := h.frame_below x (hmem x hx)
    rcases mem_cons.mp hf with rfl | hf
    · exact absurd hfx (not_le.mpr (hrest x hx))
    · exact ⟨f, hf, hfx⟩
  · simp only [if_neg (hout x hx)]
    exact h.low_le x (hmem x hx)
  · obtain ⟨y, hy, heq, hxy⟩ := h.low_reach x (hmem x hx)
    have hlt : s.num y < s.num v := heq ▸ (h.low_le x (hmem x hx)).trans_lt (hrest x hx)
    exact ⟨y, hbelow y hy hlt, heq.trans (if_neg (hout x hx)).symm, hxy⟩
  · simp only [if_neg (hout x hx)]
    refine h.low_lt x (hmem x hx) fun f hf => ?_
    rcases mem_cons.mp hf with rfl | hf
    · rintro rfl
      exact lt_irrefl _ (hrest _ hx)
    · exact hfree f hf
  · obtain ⟨q, hq, hqabove, hqy⟩ :=
      h.examined_low x (hmem x hx) y (hmem y hy) (h.examined_close hend hex)
    rcases mem_cons.mp hq with rfl | hq
    · -- The root has no low link to a node below it.
      exact absurd (hrest y hy) (not_lt.mpr (hroot ▸ hqy))
    · refine ⟨q, hq, fun p hp => hqabove p (.tail _ hp), ?_⟩
      have hq' := hbelow q.1 (h.frames_stack q (.tail _ hq)) (h.num_lt_top hq)
      exact (if_neg (hout q.1 hq')).trans_le hqy
  · rcases (hdone x).mp hx with hx | hx
    · exact (hdone y).mpr (.inl (h.done_succ x hx y hxy))
    · refine (hdone y).mpr ?_
      rcases h.component_succ hend hroot ((hsplit x).mpr (.inl hx)) (hle x hx) hxy with
        ⟨hy, hvy⟩ | hy
      · exact .inr (hcomp y hy hvy)
      · exact .inl hy
  · rcases (hdone x).mp hx with hx | hx
    · obtain ⟨r, hr, heq, hreaches⟩ := h.done_label x hx
      exact ⟨r, (hdone r).mpr (.inl hr), heq.trans (if_neg (hundone x hx)).symm, hreaches⟩
    · have hxs := (hsplit x).mpr (.inl hx)
      exact ⟨v, (hdone v).mpr (.inr (by simp)), (if_pos hx).symm,
        h.component_reach hend hroot hxs (hle x hx), h.frame_reach _ (.head _) x hxs (hle x hx)⟩
  · -- A done node reaches no node of the component.
    rcases (hdone x).mp hx with hx | hx <;> rcases (hdone y).mp hy with hy | hy
    · simp only [if_neg (hundone x hx), if_neg (hundone y hy)]
      exact h.done_low x y hx hy hxy hyx
    · exact absurd hy (hundone y (h.done_of_reach hx hxy))
    · exact absurd hx (hundone x (h.done_of_reach hy hyx))
    · exact (if_pos hx).trans (if_pos hy).symm

end Close

/-! ## Runs of the search -/

lemma ids_eq_some (hopen : s.Opened v) : s.ids v = some (s.num v) := by
  rcases hids : s.ids v with _ | d
  · exact absurd hids hopen
  · rw [State.num, hids, Option.getD_some]

variable [DecidableEq V]

lemma close (h : Inv adj s ((v, cursor) :: frames)) (hend : (adj v)[cursor]? = none) :
    Inv adj (close s v frames) frames := by
  have hv := h.top_mem
  have hids : s.ids v = some (s.low v) ↔ s.low v = s.num v := by
    rw [ids_eq_some (h.stack_opened v hv), Option.some_inj, eq_comm]
  by_cases hroot : s.low v = s.num v
  · have hpop := h.close_root hend hroot
    have hout : ¬(s.pop v).onStack v = true := by simp [s.pop_onStack hv]
    have hclose : Tarjan.close s v frames = s.pop v := by
      unfold Tarjan.close
      rw [if_pos (hids.mpr hroot)]
      rcases frames with _ | ⟨⟨parent, c⟩, frames⟩
      · rfl
      · exact if_neg hout
    exact hclose ▸ hpop
  · have hlt : s.low v < s.num v := lt_of_le_of_ne (h.low_le v hv) hroot
    unfold Tarjan.close
    rw [if_neg (mt hids.mp hroot)]
    rcases frames with _ | ⟨⟨parent, c⟩, frames⟩
    · exact h.close_below hend hlt fun f hf => nomatch hf
    · have hparent : (parent, c) ∈ (v, cursor) :: (parent, c) :: frames :=
        .tail _ (.head _)
      have hreach := h.frame_reach _ hparent v hv (h.num_lt_top (.head _)).le
      have hlower := h.lower (h.frames_stack _ hparent) hv hreach
      have hne : v ≠ parent := (h.top_ne (mem_cons_self (a := (parent, c)))).symm
      have hvlow := s.lower_low_of_ne v hne
      simp only [(h.onStack_iff v).mpr hv, if_true]
      refine hlower.close_below hend (by rwa [hvlow]) fun f hf => ?_
      cases hf
      rw [hvlow, State.lower_low_self]
      exact min_le_right _ _

/-- **Step.** -/
theorem step (h : Inv adj s frames) {s' : State V}
    (hstep : step adj s frames = some (s', frames')) : Inv adj s' frames' := by
  rcases frames with _ | ⟨⟨v, cursor⟩, frames⟩
  · cases hstep
  rw [Tarjan.step] at hstep
  rcases hnext : (adj v)[cursor]? with _ | w
  · rw [hnext] at hstep
    cases hstep
    exact h.close hnext
  · have hedge : Reach adj v w := .single (mem_of_getElem? hnext)
    have hv := h.top_mem
    rw [hnext] at hstep
    simp only at hstep
    split_ifs at hstep with hopen hstack
    · cases hstep
      have hopened : Inv adj (s.opening w) ((w, 0) :: (v, cursor) :: frames) := by
        refine h.opening (not_not.mpr hopen) fun f hf => (h.frame_reach f hf v hv ?_).trans hedge
        rcases mem_cons.mp hf with rfl | hf
        · exact le_rfl
        · exact (h.num_lt_top hf).le
      -- The edge that leads to the new node is accounted for by its own frame.
      refine hopened.reframe rfl fun x y hex => (examined_advance [(w, 0)] hnext hex).imp_right ?_
      rintro ⟨rfl, rfl⟩
      refine ⟨s.opened_opening.mpr (.inl rfl), fun _ => ⟨_, .head _, fun p hp _ => ?_, by simp⟩⟩
      rcases mem_cons.mp hp with rfl | hp
      · exact le_rfl
      · exact (hopened.num_lt_top hp).le
    · cases hstep
      have hw := (h.onStack_iff w).mp hstack
      refine (h.lower hv hw hedge).advance hnext hopen fun _ => ?_
      rw [State.lower_low_self]
      exact (min_le_right _ _).trans (h.low_le w hw)
    · cases hstep
      exact h.advance hnext hopen fun hw => absurd ((h.onStack_iff w).mpr hw) hstack

end Inv

variable [DecidableEq V]

lemma opened_of_step {s' : State V}
    (hstep : step adj s frames = some (s', frames')) (hv : s.Opened v) : s'.Opened v := by
  rcases frames with _ | ⟨⟨u, cursor⟩, frames⟩
  · cases hstep
  rw [step] at hstep
  rcases hnext : (adj u)[cursor]? with _ | w
  · rw [hnext] at hstep
    cases hstep
    rwa [State.Opened, close_ids]
  · rw [hnext] at hstep
    simp only at hstep
    split_ifs at hstep
    · cases hstep
      exact s.opened_opening.mpr (.inr hv)
    · cases hstep
      exact hv
    · cases hstep
      exact hv

variable [Fintype V]

/-- **Run.**  The loop ends without frames. -/
theorem inv_loop (h : Inv adj s frames) :
    Inv adj (loop adj s frames) [] ∧ ∀ v, s.Opened v → (loop adj s frames).Opened v := by
  fun_induction loop adj s frames with
  | case1 s frames hstep =>
    rcases frames with _ | ⟨⟨u, cursor⟩, frames⟩
    · exact ⟨h, fun _ hv => hv⟩
    · rw [step] at hstep
      split at hstep
      · split_ifs at hstep
      · cases hstep
  | case2 s frames s' frames' hstep ih =>
    obtain ⟨hinv, hopened⟩ := ih (h.step hstep)
    exact ⟨hinv, fun v hv => hopened v (opened_of_step hstep hv)⟩

lemma inv_dfs (h : Inv adj s []) (hroot : s.ids v = none) :
    Inv adj (dfs adj s v) [] ∧ ∀ u, u = v ∨ s.Opened u → (dfs adj s v).Opened u := by
  have hopening := h.opening (not_not.mpr hroot) fun f hf => absurd hf not_mem_nil
  obtain ⟨hinv, hopened⟩ := inv_loop hopening
  exact ⟨hinv, fun u hu => hopened u (s.opened_opening.mpr hu)⟩

variable (adj) in
lemma inv_run (roots : List V) :
    Inv adj (run adj roots) [] ∧ ∀ v ∈ roots, (run adj roots).Opened v := by
  rw [run]
  induction roots using reverseRecOn with
  | nil => exact ⟨inv_init, fun v hv => absurd hv not_mem_nil⟩
  | append_singleton roots root ih =>
    obtain ⟨hinv, hopened⟩ := ih
    rw [foldl_append, foldl_cons, foldl_nil]
    split_ifs with hroot
    · obtain ⟨hinv', hopened'⟩ := inv_dfs hinv hroot
      refine ⟨hinv', fun v hv => hopened' v ?_⟩
      rcases mem_append.mp hv with hv | hv
      · exact .inr (hopened v hv)
      · exact .inl (mem_singleton.mp hv)
    · refine ⟨hinv, fun v hv => ?_⟩
      rcases mem_append.mp hv with hv | hv
      · exact hopened v hv
      · exact mem_singleton.mp hv ▸ hroot

variable (adj) in
/-- **Components.**  After a search from all nodes, two nodes carry one label exactly if each
reaches the other. -/
theorem low_run_eq_iff {roots : List V} (hroots : ∀ v, v ∈ roots) (u v : V) :
    (run adj roots).low u = (run adj roots).low v ↔ Reach adj u v ∧ Reach adj v u := by
  obtain ⟨hinv, hopened⟩ := inv_run adj roots
  have hdone : ∀ x, (run adj roots).Done x := by
    refine fun x => ⟨hopened x (hroots x), fun hx => ?_⟩
    obtain ⟨f, hf, -⟩ := hinv.frame_below x hx
    exact not_mem_nil hf
  constructor
  · intro heq
    obtain ⟨r, hr, hrnum, hur, hru⟩ := hinv.done_label u (hdone u)
    obtain ⟨q, hq, hqnum, hvq, hqv⟩ := hinv.done_label v (hdone v)
    obtain rfl := hinv.num_inj r q hr.1 hq.1 (hrnum.trans (heq.trans hqnum.symm))
    exact ⟨hur.trans hqv, hvq.trans hru⟩
  · rintro ⟨huv, hvu⟩
    exact hinv.done_low u v (hdone u) (hdone v) huv hvu

end Tarjan

end Kyzo

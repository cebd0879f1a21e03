import Mathlib

/-!
# Strongly connected components by one depth-first search

Tarjan's algorithm on an explicit stack of frames.  A node gets a number when it is opened, and a
low link that is lowered to those of the nodes it sees on the component stack.  A node that closes
with its low link at its own number roots a component, and the nodes above it on the component stack
are labelled with that number.

At the end two nodes carry one label exactly if each reaches the other.
-/

namespace Kyzo

open List Function

namespace Tarjan

variable {V : Type*}

/-- Reachability along edges. -/
abbrev Reach (adj : V → List V) : V → V → Prop :=
  Relation.ReflTransGen fun a b => b ∈ adj a

/-- The state of the search: the last number given, numbers, low links, and the component stack with
its top first. -/
structure State (V : Type*) where
  id : ℕ
  ids : V → Option ℕ
  low : V → ℕ
  onStack : V → Bool
  stack : List V

/-- A node with the position of its next edge. -/
abbrev Frame (V : Type*) := V × ℕ

namespace State

/-- No node is open. -/
def init : State V := ⟨0, fun _ => none, fun _ => 0, fun _ => false, []⟩

variable [DecidableEq V] (s : State V)

def num (v : V) : ℕ := (s.ids v).getD 0

def Opened (v : V) : Prop := s.ids v ≠ none

/-- A node whose component has been labelled. -/
def Done (v : V) : Prop := s.Opened v ∧ v ∉ s.stack

/-- Number a node and put it on the component stack. -/
def opening (v : V) : State V where
  id := s.id + 1
  ids := update s.ids v (some (s.id + 1))
  low := update s.low v (s.id + 1)
  onStack := update s.onStack v true
  stack := v :: s.stack

/-- Lower the low link of `p` to that of `v`. -/
def lower (p v : V) : State V :=
  { s with low := update s.low p (min (s.low p) (s.low v)) }

/-- Take nodes off the component stack down to `root` and give them a label. -/
def popTo (root : V) (label : ℕ) (s : State V) : List V → State V
  | [] => { s with stack := [] }
  | v :: rest =>
    let s' := { s with
      onStack := update s.onStack v false, low := update s.low v label }
    if v = root then { s' with stack := rest } else popTo root label s' rest

/-- The component of a root leaves the stack. -/
def pop (root : V) : State V := popTo root (s.low root) s s.stack

end State

variable [DecidableEq V] (adj : V → List V)

/-- What happens when all edges of `v` have been looked at, with `frames` below it. -/
def close (s : State V) (v : V) (frames : List (Frame V)) : State V :=
  let s := if s.ids v = some (s.low v) then s.pop v else s
  match frames with
  | (parent, _) :: _ => if s.onStack v then s.lower parent v else s
  | [] => s

/-- One turn of the loop over the frames. -/
def step (s : State V) : List (Frame V) → Option (State V × List (Frame V))
  | [] => none
  | (v, cursor) :: frames =>
    match (adj v)[cursor]? with
    | some w =>
      if s.ids w = none then some (s.opening w, (w, 0) :: (v, cursor + 1) :: frames)
      else if s.onStack w then some (s.lower v w, (v, cursor + 1) :: frames)
      else some (s, (v, cursor + 1) :: frames)
    | none => some (close s v frames, frames)

/-! ## Fields after a change -/

namespace State

section

variable (s : State V)

include s

@[simp] lemma lower_num (p v x : V) : (s.lower p v).num x = s.num x := rfl

@[simp] lemma lower_low_self (p v : V) : (s.lower p v).low p = min (s.low p) (s.low v) :=
  update_self ..

lemma lower_low_of_ne {p x : V} (v : V) (h : x ≠ p) : (s.lower p v).low x = s.low x :=
  update_of_ne h ..

@[simp] lemma opening_num_self (v : V) : (s.opening v).num v = s.id + 1 := by
  simp [num, opening]

@[simp] lemma opening_low_self (v : V) : (s.opening v).low v = s.id + 1 :=
  update_self ..

lemma opening_num_of_ne {v x : V} (h : x ≠ v) : (s.opening v).num x = s.num x := by
  simp [num, opening, h]

lemma opening_low_of_ne {v x : V} (h : x ≠ v) : (s.opening v).low x = s.low x :=
  update_of_ne h ..

lemma opened_opening {v x : V} : (s.opening v).Opened x ↔ x = v ∨ s.Opened x := by
  by_cases h : x = v
  · simp [Opened, opening, h]
  · simp [Opened, opening, h]

end

end State

/-! ## Termination -/

/-- How many nodes are not open. -/
def unopened [Fintype V] (s : State V) : ℕ := (Finset.univ.filter fun v => s.ids v = none).card

/-- How many turns the frames still take without opening a node. -/
def pending (frames : List (Frame V)) : ℕ :=
  (frames.map fun f => (adj f.1).length - f.2 + 1).sum

namespace State

section

variable (root : V) (label : ℕ) (s : State V)

@[simp] lemma popTo_ids (l : List V) : (popTo root label s l).ids = s.ids := by
  induction l generalizing s with
  | nil => rfl
  | cons v rest ih =>
    rw [popTo]
    split_ifs
    · rfl
    · exact ih _

@[simp] lemma popTo_id (l : List V) : (popTo root label s l).id = s.id := by
  induction l generalizing s with
  | nil => rfl
  | cons v rest ih =>
    rw [popTo]
    split_ifs
    · rfl
    · exact ih _

lemma popTo_eq {above : List V} (hroot : root ∉ above)
    (rest : List V) : popTo root label s (above ++ root :: rest) = { s with
      stack := rest
      low := fun x => if x ∈ above ++ [root] then label else s.low x
      onStack := fun x => if x ∈ above ++ [root] then false else s.onStack x } := by
  induction above generalizing s with
  | nil =>
    rw [nil_append, popTo, if_pos rfl]
    congr 1 <;> funext x <;> simp [update_apply]
  | cons v above ih =>
    obtain ⟨hne, hroot⟩ := ne_and_not_mem_of_not_mem_cons hroot
    rw [cons_append, popTo, if_neg (Ne.symm hne), ih _ hroot]
    congr 1 <;> funext x <;> by_cases hx : x = v <;> simp [hx]

end

lemma pop_onStack (s : State V) {root : V} (h : root ∈ s.stack) :
    (s.pop root).onStack root = false := by
  obtain ⟨above, rest, hstack, hroot⟩ := eq_append_cons_of_mem h
  rw [pop, hstack, popTo_eq _ _ _ hroot]
  simp

@[simp] lemma pop_ids (s : State V) (root : V) : (s.pop root).ids = s.ids := popTo_ids ..

@[simp] lemma pop_id (s : State V) (root : V) : (s.pop root).id = s.id := popTo_id ..

end State

@[simp] lemma close_ids (s : State V) (v : V) (frames : List (Frame V)) :
    (close s v frames).ids = s.ids := by
  unfold close
  rcases frames with _ | ⟨⟨parent, cursor⟩, frames⟩
  · simp only
    split_ifs <;> simp
  · simp only
    split_ifs <;> simp [State.lower]

lemma unopened_opening [Fintype V] {s : State V} {v : V} (h : s.ids v = none) :
    unopened (s.opening v) < unopened s := by
  refine Finset.card_lt_card (Finset.ssubset_iff_subset_ne.mpr ⟨?_, ?_⟩)
  · intro u hu
    rw [Finset.mem_filter] at hu ⊢
    refine ⟨hu.1, ?_⟩
    by_contra hne
    have huv : u ≠ v := by
      rintro rfl
      exact hne h
    exact hne ((update_of_ne huv _ _).symm.trans hu.2)
  · intro heq
    have hmem : v ∈ Finset.univ.filter fun u => s.ids u = none := by simp [h]
    rw [← heq, Finset.mem_filter] at hmem
    simp [State.opening] at hmem

lemma step_decreases [Fintype V] {s s' : State V} {frames frames' : List (Frame V)}
    (h : step adj s frames = some (s', frames')) :
    Prod.Lex (· < ·) (· < ·) (unopened s', pending adj frames')
      (unopened s, pending adj frames) := by
  rcases frames with _ | ⟨⟨v, cursor⟩, frames⟩
  · cases h
  rw [step] at h
  rcases hnext : (adj v)[cursor]? with _ | w
  · rw [hnext] at h
    obtain ⟨rfl, rfl⟩ := Prod.mk.inj (Option.some.inj h)
    have hsame : unopened (close s v frames) = unopened s := by rw [unopened, close_ids, unopened]
    rw [hsame]
    exact .right _ (by simp [pending])
  · have hcursor : cursor < (adj v).length := (List.getElem_of_getElem? hnext).1
    have hpending : pending adj ((v, cursor + 1) :: frames) <
        pending adj ((v, cursor) :: frames) := by
      simp only [pending, map_cons, sum_cons]
      omega
    rw [hnext] at h
    simp only at h
    split_ifs at h with hopen hstack
    · cases h
      exact .left _ _ (unopened_opening hopen)
    · cases h
      exact .right _ hpending
    · cases h
      exact .right _ hpending

/-- The loop over the frames. -/
def loop [Fintype V] (s : State V) (frames : List (Frame V)) : State V :=
  match _ : step adj s frames with
  | none => s
  | some (s', frames') => loop s' frames'
termination_by (unopened s, pending adj frames)
decreasing_by exact step_decreases adj ‹_›

/-- The search from one root. -/
def dfs [Fintype V] (s : State V) (root : V) : State V := loop adj (s.opening root) [(root, 0)]

/-- The search from every root that is not open. -/
def run [Fintype V] (roots : List V) : State V :=
  roots.foldl (fun s root => if s.ids root = none then dfs adj s root else s) .init

end Tarjan

end Kyzo

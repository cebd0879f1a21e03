import Kyzo.Lib.Except
import Mathlib.Data.Finset.Card
import Mathlib.Data.List.ProdSigma

/-!
# Shortest paths by breadth-first search

The rule of `rules/algo/shortest_path_bfs.rs`.  A node is visited from the first open node that has
an edge to it, and the open nodes come by their distance, so every end is found along a shortest
path; after the last one nothing is opened.  The start has no predecessor, so an end that is the
start itself gets no route.
-/

namespace Kyzo

open List Function

namespace ShortestPathBFS

variable {V : Type*} [DecidableEq V]

/-- What is kept for one start: the ends to find, the visited nodes, their predecessors and the open
nodes, the next one first. -/
structure Search (V : Type*) where
  pending : Finset V
  visited : Finset V
  backtrace : V → Option V
  queue : List V

/-- A node is visited from `candidate`. -/
def Search.visit (s : Search V) (candidate toNode : V) : Search V :=
  { s with
    visited := insert toNode s.visited
    backtrace := update s.backtrace toNode (some candidate)
    pending := s.pending.erase toNode }

/-- The edges out of `candidate`, up to the one that finds the last pending end. -/
def scan (candidate : V) : List V → Search V → Search V
  | [], s => s
  | toNode :: rest, s =>
    if toNode ∈ s.visited then scan candidate rest s
    else if (s.visit candidate toNode).pending = ∅ then s.visit candidate toNode
    else scan candidate rest { s.visit candidate toNode with queue := s.queue ++ [toNode] }

variable (edges : List (V × V))

/-- The nodes the edges out of a node lead to. -/
def targets (candidate : V) : List V := (edges.filter (·.1 = candidate)).map (·.2)

/-- The loop over the open nodes, for at most `fuel` turns. -/
def drain : ℕ → Search V → Option (Search V)
  | 0, _ => none
  | fuel + 1, s =>
    match s.queue with
    | [] => some s
    | candidate :: queue =>
      drain fuel (scan candidate (targets edges candidate) { s with queue })

/-- The search from one start: a turn for the start, one for every edge, and one to see the end. -/
def search (start : V) (ends : List V) : Option (Search V) :=
  drain edges (edges.length + 2) ⟨ends.toFinset, {start}, fun _ => none, [start]⟩

/-- The way back from `current` to the start, before what has been passed. -/
def routeTo (start : V) (backtrace : V → Option V) : ℕ → V → List V → Option (List V)
  | 0, _, _ => none
  | fuel + 1, current, route =>
    if current = start then some (start :: route)
    else (backtrace current).bind fun previous =>
      routeTo start backtrace fuel previous (current :: route)

/-- The row of one pair, with `none` for `Null`; the way back has no more nodes than are visited. -/
def row (start : V) (s : Search V) (ending : V) : Option (V × V × Option (List V)) :=
  if (s.backtrace ending).isSome then
    (routeTo start s.backtrace s.visited.card ending []).map (start, ending, some ·)
  else some (start, ending, none)

def run (starts ends : List V) : Option (List (V × V × Option (List V))) :=
  (starts.mapM fun start => do ends.mapM (row start (← search edges start ends))).map flatten

/-- A path, from its first node to its last. -/
inductive IsPath (start : V) : V → List V → Prop
  | nil : IsPath start start [start]
  | snoc {u v : V} {route : List V} :
      IsPath start u route → (u, v) ∈ edges → IsPath start v (route ++ [v])

/-- The row has a path with the fewest edges, or there is no path. -/
def Shortest (row : V × V × Option (List V)) : Prop :=
  match row.2.2 with
  | some route => IsPath edges row.1 row.2.1 route ∧
      ∀ other, IsPath edges row.1 row.2.1 other → route.length ≤ other.length
  | none => ∀ other, ¬ IsPath edges row.1 row.2.1 other

/-- The search so far, with `d` the length of the way back from each visited node.  While an end is
pending, only the open nodes have unknown successors. -/
structure Sound (start : V) (ends : List V) (d : V → ℕ) (opened : List V) (s : Search V) :
    Prop where
  start_mem : start ∈ s.visited
  start_depth : d start = 0
  pending : ∀ e, e ∈ s.pending ↔ e ∈ ends ∧ (e ∈ s.visited → e = start)
  fresh : ∀ v, v = start ∨ v ∉ s.visited → s.backtrace v = none
  back : ∀ v ∈ s.visited, v ≠ start →
    ∃ u ∈ s.visited, s.backtrace v = some u ∧ (u, v) ∈ edges ∧ d v = d u + 1
  small : ∀ v ∈ s.visited, d v < s.visited.card
  best : ∀ e ∈ ends, e ∈ s.visited → ∀ route, IsPath edges start e route → d e < route.length
  opened_subset : ∀ v ∈ opened, v ∈ s.visited
  sorted : opened.Pairwise (d · ≤ d ·)
  low : ∀ u ∈ opened, ∀ v ∈ s.visited, d v ≤ d u + 1
  closed : s.pending ≠ ∅ → ∀ u ∈ s.visited, u ∉ opened → ∀ v, (u, v) ∈ edges →
    v ∈ s.visited ∧ d v ≤ d u + 1

variable {edges} {start v w c : V} {ends rest route opened : List V} {d : V → ℕ} {s : Search V}

namespace Sound

/-- **A path leads to a visited node or passes an open one.** -/
theorem frontier (h : Sound edges start ends d opened s) (hne : s.pending ≠ ∅)
    (hpath : IsPath edges start v route) :
    v ∈ s.visited ∧ d v < route.length ∨ ∃ u ∈ opened, d u + 1 < route.length := by
  induction hpath with
  | nil => exact .inl ⟨h.start_mem, by simp [h.start_depth]⟩
  | @snoc u v route _ hedge ih =>
    rw [length_append, length_singleton]
    rcases ih with ⟨hu, hlt⟩ | ⟨a, ha, hlt⟩
    · by_cases hopen : u ∈ opened
      · exact .inr ⟨u, hopen, by omega⟩
      · obtain ⟨hv, hle⟩ := h.closed hne u hu hopen v hedge
        exact .inl ⟨hv, by omega⟩
    · exact .inr ⟨a, ha, by omega⟩

lemma visit (h : Sound edges start ends d (c :: opened) s) (hedge : (c, w) ∈ edges)
    (hw : w ∉ s.visited) :
    Sound edges start ends (update d w (d c + 1)) (c :: (opened ++ [w])) (s.visit c w) := by
  have hd : ∀ v ∈ s.visited, update d w (d c + 1) v = d v := fun v hv =>
    update_of_ne (ne_of_mem_of_not_mem hv hw) _ _
  have hc := h.opened_subset c (.head _)
  have hmin : ∀ u ∈ c :: opened, d c ≤ d u :=
    forall_mem_cons.mpr ⟨le_rfl, (pairwise_cons.mp h.sorted).1⟩
  have hstart := h.start_mem
  have hopen := h.opened_subset
  have hlow := h.low
  unfold Search.visit
  rw [← cons_append]
  constructor
  · grind
  · grind [h.start_depth]
  · grind [h.pending]
  · grind [h.fresh]
  · grind [h.back]
  · have := h.small
    grind
  · intro e he hv route hpath
    rcases Finset.mem_insert.mp hv with rfl | hv
    · -- A path to a new node passes an open one, and none is nearer than `c`.
      have hne := Finset.ne_empty_of_mem ((h.pending e).mpr ⟨he, fun h => absurd h hw⟩)
      rw [update_self]
      rcases h.frontier hne hpath with ⟨h, -⟩ | ⟨u, hu, hlt⟩
      · exact absurd h hw
      · exact (Nat.add_le_add_right (hmin u hu) 1).trans_lt hlt
    · rw [hd e hv]
      exact h.best e he hv route hpath
  · grind
  · refine pairwise_append.mpr ⟨h.sorted.imp_of_mem fun ha hb => ?_, pairwise_singleton _ _, ?_⟩
    · rw [hd _ (hopen _ ha), hd _ (hopen _ hb)]
      exact id
    · grind
  · grind
  · intro hne u hu hnot v hedge
    have := h.closed (fun hempty => hne (by simp [hempty])) u
    grind

/-- A node is open no longer when its successors are visited, or no end is pending. -/
theorem narrow {opened' : List V} (h : Sound edges start ends d opened s) (hsub : opened' <+ opened)
    (hall : s.pending ≠ ∅ → ∀ u ∈ opened, u ∉ opened' → ∀ v, (u, v) ∈ edges → v ∈ s.visited) :
    Sound edges start ends d opened' s := by
  refine { h with
    opened_subset := fun v hv => h.opened_subset v (hsub.subset hv)
    sorted := h.sorted.sublist hsub
    low := fun u hu => h.low u (hsub.subset hu)
    closed := fun hne u hu hnot v hedge => ?_ }
  by_cases hopen : u ∈ opened
  · have hv := hall hne u hopen hnot v hedge
    exact ⟨hv, h.low u hopen v hv⟩
  · exact h.closed hne u hu hopen v hedge

end Sound

variable (edges) in
/-- A bound of the turns that are left. -/
def work (s : Search V) : ℕ := s.queue.length + ((edges.map (·.2)).toFinset \ s.visited).card

lemma scan_spec (h : Sound edges start ends d (c :: s.queue) s) (hrest : ∀ w ∈ rest, (c, w) ∈ edges)
    (hall : ∀ w, (c, w) ∈ edges → w ∈ rest ∨ w ∈ s.visited) :
    work edges (scan c rest s) ≤ work edges s ∧
      ∃ d', Sound edges start ends d' (scan c rest s).queue (scan c rest s) := by
  induction rest generalizing s d with
  | nil => exact ⟨le_rfl, d, h.narrow (sublist_cons_self c _) (by grind [scan])⟩
  | cons w rest ih =>
    obtain ⟨hw, hrest⟩ := forall_mem_cons.mp hrest
    rw [scan]
    by_cases hvisited : w ∈ s.visited
    · rw [if_pos hvisited]
      exact ih h hrest fun v hv => by grind
    have hnext := h.visit hw hvisited
    have hcard : ((edges.map (·.2)).toFinset \ insert w s.visited).card + 1 =
        ((edges.map (·.2)).toFinset \ s.visited).card := by
      rw [Finset.sdiff_insert, Finset.card_erase_add_one]
      exact Finset.mem_sdiff.mpr ⟨by simpa using ⟨c, hw⟩, hvisited⟩
    rw [if_neg hvisited]
    split_ifs with hdone
    · refine ⟨?_, _, hnext.narrow ((sublist_append_left _ _).cons c) fun hne => absurd hdone hne⟩
      simp only [work, Search.visit]
      omega
    · obtain ⟨hwork, hspec⟩ := ih (s := { s.visit c w with queue := s.queue ++ [w] })
        { hnext with } hrest (by grind [Search.visit])
      refine ⟨hwork.trans ?_, hspec⟩
      simp only [work, Search.visit, length_append, length_singleton]
      omega

variable {fuel : ℕ}

lemma drain_spec (h : Sound edges start ends d s.queue s) (hfuel : work edges s < fuel) :
    ∃ s' d', drain edges fuel s = some s' ∧ Sound edges start ends d' [] s' := by
  induction fuel generalizing s d with
  | zero => exact absurd hfuel (Nat.not_lt_zero _)
  | succ fuel ih =>
    rw [drain]
    rcases hqueue : s.queue with _ | ⟨c, queue⟩
    · exact ⟨s, d, rfl, hqueue ▸ h⟩
    · rw [hqueue] at h
      have htargets : ∀ w, w ∈ targets edges c ↔ (c, w) ∈ edges := by simp [targets]
      obtain ⟨hwork, d', hsound⟩ := scan_spec (s := { s with queue }) { h with }
        (fun w => (htargets w).mp) fun w hw => .inl ((htargets w).mpr hw)
      refine ih hsound ?_
      simp only [work, hqueue, length_cons] at hwork hfuel ⊢
      omega

lemma routeTo_spec (h : Sound edges start ends d opened s) (hv : v ∈ s.visited)
    (hfuel : d v < fuel) (passed : List V) :
    ∃ route, routeTo start s.backtrace fuel v passed = some (route ++ passed) ∧
      IsPath edges start v route ∧ route.length = d v + 1 := by
  induction fuel generalizing v passed with
  | zero => exact absurd hfuel (Nat.not_lt_zero _)
  | succ fuel ih =>
    rw [routeTo]
    split_ifs with hstart
    · subst hstart
      exact ⟨[v], rfl, .nil, by simp [h.start_depth]⟩
    · obtain ⟨u, hu, hback, hedge, hdepth⟩ := h.back v hv hstart
      obtain ⟨route, hroute, hpath, hlen⟩ := ih hu (by omega) (v :: passed)
      exact ⟨route ++ [v], by simp [hback, hroute], hpath.snoc hedge, by simp [hlen, hdepth]⟩

variable (edges start ends) in
lemma search_spec : ∃ s, search edges start ends = some s ∧ ∀ e ∈ ends, ∃ answer,
    row start s e = some (start, e, answer) ∧ (Shortest edges (start, e, answer) ↔ e ≠ start) := by
  have hbegin : Sound edges start ends (fun _ => 0) [start]
      ⟨ends.toFinset, {start}, fun _ => none, [start]⟩ := by
    refine ⟨by simp, rfl, by simp, by simp, by simp, by simp, fun e _ _ route hpath => ?_, by simp,
      by simp, by simp, by simp⟩
    cases hpath <;> simp
  have hfuel : work edges ⟨ends.toFinset, {start}, fun _ => none, [start]⟩ < edges.length + 2 := by
    have hle := (Finset.card_le_card (Finset.sdiff_subset (t := {start}))).trans
      (edges.map (·.2)).toFinset_card_le
    rw [length_map] at hle
    simp only [work, length_singleton]
    omega
  obtain ⟨s, d, hs, h⟩ := drain_spec hbegin hfuel
  refine ⟨s, hs, fun e he => ?_⟩
  rw [row]
  by_cases hstart : e = start
  · subst hstart
    rw [h.fresh e (.inl rfl)]
    exact ⟨none, rfl, fun hno => absurd .nil (hno [e]), fun hne => absurd rfl hne⟩
  by_cases hv : e ∈ s.visited
  · obtain ⟨u, -, hback, -⟩ := h.back e hv hstart
    obtain ⟨route, hroute, hpath, hlen⟩ := routeTo_spec h hv (h.small e hv) []
    refine ⟨some route, by simp [hback, hroute], iff_of_true ⟨hpath, fun other hother => ?_⟩ hstart⟩
    exact hlen ▸ h.best e he hv other hother
  · refine ⟨none, by simp [h.fresh e (.inr hv)], iff_of_true (fun other hother => ?_) hstart⟩
    have hne := Finset.ne_empty_of_mem ((h.pending e).mpr ⟨he, fun h => absurd h hv⟩)
    simpa [hv] using h.frontier hne hother

/-- **Shortest paths by breadth-first search.**  Every pair gets one row, and all rows are right
exactly if no starting node is an ending node. -/
theorem run_shortest_iff (edges : List (V × V)) (starts ends : List V) :
    ∃ rows, run edges starts ends = some rows ∧
      rows.map (fun row => (row.1, row.2.1)) = starts ×ˢ ends ∧
      ((∀ row ∈ rows, Shortest edges row) ↔ ∀ start ∈ starts, start ∉ ends) := by
  choose s hs hrow using fun start => search_spec edges start ends
  choose! answer hrow hshort using hrow
  refine ⟨starts.flatMap fun start => ends.map fun e => (start, e, answer start e), ?_, ?_, ?_⟩
  · have hrows : ∀ start, (do ends.mapM (row start (← search edges start ends))) =
        some (ends.map fun e => (start, e, answer start e)) := fun start => by
      rw [hs]
      exact mapM_eq_some.mpr (by rw [map_map]; exact map_congr_left (hrow start))
    rw [run, funext hrows]
    exact congrArg (Option.map flatten) mapM_pure
  · simp [map_flatMap, Function.comp_def]
    rfl
  · constructor
    · intro h start hstart hmem
      have hrow := h _ (mem_flatMap.mpr ⟨start, hstart, mem_map_of_mem hmem⟩)
      exact (hshort start start hmem).mp hrow rfl
    · intro h r hr
      obtain ⟨start, hstart, hr⟩ := mem_flatMap.mp hr
      obtain ⟨e, he, rfl⟩ := mem_map.mp hr
      exact (hshort start e he).mpr fun heq => h start hstart (heq ▸ he)

theorem run_misses_start : run [] [0] [0] = some [(0, 0, none)] ∧
    ¬ Shortest ([] : List (ℕ × ℕ)) (0, 0, none) :=
  ⟨by decide, fun h => h [0] .nil⟩

end ShortestPathBFS

end Kyzo

import Kyzo.Lib.Collect
import Kyzo.Lib.Except
import Kyzo.Lib.Sorted
import Kyzo.Lib.TarjanComponents
import Std.Data.TreeSet.Lemmas

/-!
# The graph algorithms under the stratifier

`exec/plan/graph.rs`: strongly connected components, reachability, and a topological sort that lays
the nodes of a graph with poisoned edges out into strata.
-/

namespace Kyzo

open List Std Prod TreeSet

/-- `Graph`: a node and its successors. -/
abbrev Graph (T : Type) [Ord T] := TreeMap T (List T)

/-- `StratifiedGraph`: a node and its successors, each with the flag of a poisoned edge. -/
abbrev StratifiedGraph (T : Type) [Ord T] := TreeMap T (TreeMap T Bool)

inductive GraphInvariantError where
  | sccMemberOutOfRange
  | sccTargetOutOfRange
  | kahnSourceOutOfRange
  | kahnTargetOutOfRange
  | kahnUnderflow
  | kahnUnconsumed

/-! ## Strongly connected components -/

/-- `TarjanScc` over an index graph whose edge targets have been validated. -/
structure TarjanScc where
  graph : List (List ℕ)
  inRange : ∀ tos ∈ graph, ∀ tgt ∈ tos, tgt < graph.length

namespace TarjanScc

def new (graph : List (List ℕ)) : Except GraphInvariantError TarjanScc :=
  if h : ∀ tos ∈ graph, ∀ tgt ∈ tos, tgt < graph.length then .ok ⟨graph, h⟩
  else .error .sccTargetOutOfRange

/-- The successors of a node. -/
def successors (t : TarjanScc) (i : Fin t.graph.length) : List (Fin t.graph.length) :=
  (t.graph.get i).attach.map fun tgt => ⟨tgt.val, t.inRange _ (get_mem ..) _ tgt.property⟩

/-- `TarjanScc::run`: the nodes grouped by their label after the search from every node. -/
def run (t : TarjanScc) : List (List ℕ) :=
  let low := (Tarjan.run t.successors (finRange t.graph.length)).low
  let lowMap : TreeMap ℕ (List ℕ) := (finRange t.graph.length).foldl
    (fun m idx => m.alter (low idx) fun group => some (group.getD [] ++ [idx.val])) ∅
  lowMap.toList.map snd

end TarjanScc

variable {T : Type} [Ord T]

def stronglyConnectedComponents (graph : Graph T) : Except GraphInvariantError (List (List T)) := do
  let indices := graph.keys
  let invertIndices := collect indices.zipIdx
  let idxGraph := graph.toList.map fun (_, vs) => vs.filterMap fun v => invertIndices[v]?
  let scc ← TarjanScc.new idxGraph
  scc.run.mapM fun group => group.mapM fun i =>
    match indices[i]? with
    | some v => .ok v
    | none => .error .sccMemberOutOfRange

/-! ## Reachability -/

/-- The loop over the children of a node: those not seen before are collected and pushed. -/
def collectChildren (collected : TreeSet T) (pending : List T) : List T → TreeSet T × List T
  | [] => (collected, pending)
  | el :: children =>
    if el ∈ collected then collectChildren collected pending children
    else collectChildren (collected.insert el) (el :: pending) children

/-- How many successors in the graph are not collected. -/
def uncollected (graph : Graph T) (collected : TreeSet T) : ℕ :=
  ((graph.toList.flatMap snd).filter fun v => v ∉ collected).length

/-- The children of a node. -/
def children (graph : Graph T) (v : T) : List T := (graph.get? v).getD []

section Reachable

variable [TransOrd T] [LawfulEqOrd T] {graph : Graph T} {el : T}

lemma uncollected_insert_lt {collected : TreeSet T} (hmem : el ∈ graph.toList.flatMap snd)
    (hnew : el ∉ collected) :
    uncollected graph (collected.insert el) < uncollected graph collected := by
  refine length_filter_lt hmem (fun v _ hv => ?_) (by simpa using hnew) (by simp)
  rw [decide_eq_true_iff] at hv ⊢
  exact fun h => hv (mem_insert.mpr (.inr h))

lemma collectChildren_le (graph : Graph T) (children : List T) (collected : TreeSet T)
    (pending : List T) (h : ∀ el ∈ children, el ∈ graph.toList.flatMap snd) :
    uncollected graph (collectChildren collected pending children).1 +
        (collectChildren collected pending children).2.length ≤
      uncollected graph collected + pending.length := by
  induction children generalizing collected pending with
  | nil => exact le_rfl
  | cons el children ih =>
    have hrest : ∀ el ∈ children, el ∈ graph.toList.flatMap snd :=
      fun el hel => h el (.tail _ hel)
    rw [collectChildren]
    split_ifs with hel
    · exact ih _ _ hrest
    · have hlt := uncollected_insert_lt (h el (.head _)) hel
      have hle := ih (collected.insert el) (el :: pending) hrest
      rw [length_cons] at hle
      omega

lemma mem_successors_of_children {v : T} (h : el ∈ children graph v) :
    el ∈ graph.toList.flatMap snd := by
  rw [children] at h
  rcases hget : graph.get? v with _ | vs
  · rw [hget] at h
    exact absurd h not_mem_nil
  · rw [hget] at h
    exact mem_flatMap.mpr ⟨(v, vs), TreeMap.mem_toList_iff_getElem?_eq_some.mpr hget, h⟩

/-- The worklist of `reachable_components`, its top first. -/
def reachableLoop {T : Type} [Ord T] [TransOrd T] [LawfulEqOrd T] (graph : Graph T)
    (collected : TreeSet T) : List T → TreeSet T
  | [] => collected
  | v :: pending =>
    let next := collectChildren collected pending (children graph v)
    reachableLoop graph next.1 next.2
termination_by pending => uncollected graph collected + pending.length
decreasing_by
  have hle := collectChildren_le graph (children graph v) collected pending
    fun el hel => mem_successors_of_children hel
  exact Nat.lt_of_le_of_lt hle (Nat.lt_succ_self _)

def reachableComponents (graph : Graph T) (start : T) : TreeSet T :=
  reachableLoop graph ((∅ : TreeSet T).insert start) [start]

end Reachable

/-! ## The generalized Kahn's algorithm -/

/-- What the loop of `generalized_kahn` works on: in-degrees, the nodes that may be placed in the
current stratum with the next one first, and the nodes that must wait for the next stratum. -/
structure KahnState where
  inDegree : List ℕ
  safePending : List ℕ
  unsafeNodes : TreeSet ℕ

/-- One more edge into a node. -/
def countEdge (inDegree : List ℕ) (tgt : ℕ) : Except GraphInvariantError (List ℕ) :=
  match inDegree[tgt]? with
  | some d => .ok (inDegree.set tgt (d + 1))
  | none => .error .kahnTargetOutOfRange

/-- The in-degrees of the nodes. -/
def inDegrees (graph : StratifiedGraph ℕ) (numNodes : ℕ) : Except GraphInvariantError (List ℕ) :=
  graph.toList.foldlM (fun inDegree (fr, tos) =>
      if fr < numNodes then tos.keys.foldlM countEdge inDegree
      else .error .kahnSourceOutOfRange)
    (replicate numNodes 0)

/-- One edge of the node that has been placed. -/
def relax (s : KahnState) (edge : ℕ × Bool) : Except GraphInvariantError KahnState :=
  match s.inDegree[edge.1]? with
  | none => .error .kahnTargetOutOfRange
  | some 0 => .error .kahnUnderflow
  | some (d + 1) =>
    let unsafeNodes := if edge.2 then s.unsafeNodes.insert edge.1 else s.unsafeNodes
    .ok {
      inDegree := s.inDegree.set edge.1 d
      safePending :=
        if d = 0 ∧ edge.1 ∉ unsafeNodes then edge.1 :: s.safePending else s.safePending
      unsafeNodes }

/-- The nodes that wait and have no edge left to them. -/
def released (s : KahnState) : List ℕ :=
  (s.unsafeNodes.toList.filter fun node => s.inDegree[node]? = some 0).reverse

/-- The edges of a node. -/
def outEdges (graph : StratifiedGraph ℕ) (node : ℕ) : List (ℕ × Bool) :=
  ((graph.get? node).map (·.toList)).getD []

/-- Nodes that still have to be pushed: with an edge left to them, or waiting. -/
def unpushed (s : KahnState) : ℕ :=
  ((range s.inDegree.length).filter fun j =>
    s.inDegree[j]? ≠ some 0 ∨ j ∈ s.unsafeNodes).length

variable {s s' : KahnState} {edge : ℕ × Bool}

lemma relax_eq_ok (h : relax s edge = .ok s') :
    ∃ d, s.inDegree[edge.1]? = some (d + 1) ∧ s'.inDegree = s.inDegree.set edge.1 d ∧
      s'.unsafeNodes = (if edge.2 then s.unsafeNodes.insert edge.1 else s.unsafeNodes) ∧
      s'.safePending =
        if d = 0 ∧ edge.1 ∉ s'.unsafeNodes then edge.1 :: s.safePending else s.safePending := by
  rw [relax] at h
  rcases hdeg : s.inDegree[edge.1]? with _ | _ | d
  · rw [hdeg] at h
    cases h
  · rw [hdeg] at h
    cases h
  · rw [hdeg] at h
    cases h
    exact ⟨d, rfl, rfl, rfl, rfl⟩

lemma unpushed_relax (h : relax s edge = .ok s') :
    unpushed s' + s'.safePending.length ≤ unpushed s + s.safePending.length := by
  obtain ⟨d, hdeg, hinDegree, hwaiting, hpending⟩ := relax_eq_ok h
  have hlt : edge.1 < s.inDegree.length := (List.getElem_of_getElem? hdeg).1
  have hlen : s'.inDegree.length = s.inDegree.length := by rw [hinDegree, length_set]
  have himp : ∀ j ∈ range s.inDegree.length,
      decide (s'.inDegree[j]? ≠ some 0 ∨ j ∈ s'.unsafeNodes) = true →
        decide (s.inDegree[j]? ≠ some 0 ∨ j ∈ s.unsafeNodes) = true := by
    intro j _ hj
    rw [decide_eq_true_iff] at hj ⊢
    by_cases hedge : edge.1 = j
    · rw [← hedge, hdeg]
      exact .inl (by simp)
    · rw [hinDegree, getElem?_set_ne hedge, hwaiting] at hj
      refine hj.imp_right fun hmem => ?_
      split_ifs at hmem
      · rw [mem_insert, LawfulEqOrd.compare_eq_iff_eq] at hmem
        exact hmem.resolve_left hedge
      · exact hmem
  rw [unpushed, unpushed, hlen]
  split_ifs at hpending with hpush
  · have hless := length_filter_lt (mem_range.mpr hlt) himp (by simp [hdeg])
      (by simp [hinDegree, hlt, hpush.1, hpush.2])
    rw [hpending, length_cons]
    omega
  · rw [hpending, ← countP_eq_length_filter, ← countP_eq_length_filter]
    have hle := countP_mono_left himp
    omega

lemma mem_released {s : KahnState} {node : ℕ} :
    node ∈ released s ↔ node ∈ s.unsafeNodes ∧ s.inDegree[node]? = some 0 := by
  rw [released, mem_reverse, mem_filter, mem_toList, decide_eq_true_iff]

lemma released_nodup (s : KahnState) : (released s).Nodup := by
  rw [released, nodup_reverse]
  refine List.Nodup.filter _ (distinct_toList.imp fun {a b} hne heq => hne ?_)
  rw [heq]
  exact ReflCmp.compare_self

lemma unpushed_released (s : KahnState) :
    unpushed { s with safePending := released s, unsafeNodes := ∅ } + (released s).length ≤
      unpushed s := by
  rw [unpushed, ← length_append]
  refine (List.Nodup.subperm ?_ fun j hj => ?_).length_le
  · refine List.Nodup.append (List.Nodup.filter _ nodup_range) (released_nodup s) ?_
    intro j hleft hright
    obtain ⟨-, hzero⟩ := mem_released.mp hright
    simp [hzero] at hleft
  · rw [mem_filter, mem_range, decide_eq_true_iff]
    rcases mem_append.mp hj with hj | hj
    · rw [mem_filter, mem_range, decide_eq_true_iff] at hj
      exact ⟨hj.1, .inl (hj.2.resolve_right not_mem_emptyc)⟩
    · obtain ⟨hmem, hzero⟩ := mem_released.mp hj
      exact ⟨(List.getElem_of_getElem? hzero).1, .inr hmem⟩

section

variable (ret : List (List ℕ)) (currentStratum : List ℕ) (s : KahnState)

/-- The stratum boundary: everything placeable is placed and only waiting nodes remain, so the
stratum is closed and the waiting nodes without an edge left are released. -/
def boundary : List (List ℕ) × List ℕ × KahnState :=
  if s.safePending.isEmpty ∧ ¬s.unsafeNodes.isEmpty then
    (ret ++ [currentStratum], [], { s with safePending := released s, unsafeNodes := ∅ })
  else (ret, currentStratum, s)

lemma unpushed_boundary : unpushed (boundary ret currentStratum s).2.2 +
        (boundary ret currentStratum s).2.2.safePending.length ≤
      unpushed s + s.safePending.length := by
  rw [boundary]
  split_ifs with h
  · have hle := unpushed_released s
    simp only at hle ⊢
    omega
  · exact le_rfl

end

lemma unpushed_foldlM {edges : List (ℕ × Bool)} (h : edges.foldlM relax s = .ok s') :
    unpushed s' + s'.safePending.length ≤ unpushed s + s.safePending.length := by
  induction edges generalizing s with
  | nil =>
    cases h
    exact le_rfl
  | cons edge edges ih =>
    obtain ⟨s₁, hrelax, hrest⟩ := bind_ok h
    exact (ih hrest).trans (unpushed_relax hrelax)

/-- The loop of `generalized_kahn`, which returns the strata and what is left of the in-degrees. -/
def kahnLoop (graph : StratifiedGraph ℕ) (ret : List (List ℕ)) (currentStratum : List ℕ)
    (s : KahnState) : Except GraphInvariantError (List (List ℕ) × List ℕ) :=
  match _ : boundary ret currentStratum s with
  | (ret₁, current₁, s₁) =>
    match _ : s₁.safePending with
    | [] => .ok (if current₁.isEmpty then ret₁ else ret₁ ++ [current₁], s₁.inDegree)
    | removed :: safePending =>
      match _ : (outEdges graph removed).foldlM relax { s₁ with safePending } with
      | .error e => .error e
      | .ok s₂ => kahnLoop graph ret₁ (current₁ ++ [removed]) s₂
termination_by unpushed s + s.safePending.length
decreasing_by
  rename_i hb hp he
  have hboundary := unpushed_boundary ret currentStratum s
  have hedges := unpushed_foldlM he
  have hsame : unpushed { s₁ with safePending } = unpushed s₁ := rfl
  rw [hb] at hboundary
  simp only [hp, hsame, length_cons] at hboundary hedges
  omega

section KahnLoop

variable {graph : StratifiedGraph ℕ} {ret ret₁ : List (List ℕ)} {current current₁ : List ℕ}
  {s s₁ s₂ : KahnState} (hb : boundary ret current s = (ret₁, current₁, s₁))

include hb

lemma kahnLoop_of_nil (hp : s₁.safePending = []) : kahnLoop graph ret current s =
      .ok (if current₁.isEmpty then ret₁ else ret₁ ++ [current₁], s₁.inDegree) := by
  rw [kahnLoop]
  split
  rename_i hb'
  obtain ⟨rfl, rfl, rfl⟩ : _ ∧ _ ∧ _ := by simpa [Prod.ext_iff] using hb.symm.trans hb'
  split
  · rfl
  · rename_i hp'
    cases hp.symm.trans hp'

lemma kahnLoop_of_cons {removed : ℕ} {safePending : List ℕ}
    (hp : s₁.safePending = removed :: safePending)
    (he : (outEdges graph removed).foldlM relax { s₁ with safePending } = .ok s₂) :
    kahnLoop graph ret current s = kahnLoop graph ret₁ (current₁ ++ [removed]) s₂ := by
  rw [kahnLoop]
  split
  rename_i hb'
  obtain ⟨rfl, rfl, rfl⟩ : _ ∧ _ ∧ _ := by simpa [Prod.ext_iff] using hb.symm.trans hb'
  split
  · rename_i hp'
    cases hp.symm.trans hp'
  · rename_i hp'
    cases hp.symm.trans hp'
    split
    · rename_i he'
      cases he.symm.trans he'
    · rename_i he'
      cases he.symm.trans he'
      rfl

end KahnLoop

def generalizedKahn (graph : StratifiedGraph ℕ) (numNodes : ℕ) :
    Except GraphInvariantError (List (List ℕ)) := do
  let inDegree ← inDegrees graph numNodes
  let safePending :=
    ((range numNodes).filter fun node => inDegree[node]? = some 0).reverse
  let (ret, inDegree) ← kahnLoop graph [] [] ⟨inDegree, safePending, ∅⟩
  if inDegree.all (· = 0) then .ok ret else .error .kahnUnconsumed

end Kyzo

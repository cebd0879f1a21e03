import Mathlib.Data.List.Sort

/-!
# The graph view of an edge relation

The graphs of `rules/graph_view.rs`: nodes are dense numbers, parallel edges and self loops are
kept, and the edges out of a node come ordered by their target.
-/

namespace Kyzo

/-- A directed graph with a weight on each edge. -/
structure DirectedCsrGraph (W : Type) where
  nodeCount : ℕ
  edges : List (Fin nodeCount × Fin nodeCount × W)

namespace DirectedCsrGraph

variable {W : Type} (g : DirectedCsrGraph W)

/-- The edges out of a node, sorted by target; parallel edges stay in the order they came in. -/
def outNeighborsWithValues (node : Fin g.nodeCount) : List (Fin g.nodeCount × W) :=
  ((g.edges.filter (·.1 = node)).map (·.2)).mergeSort fun a b => a.1 ≤ b.1

def outNeighbors (node : Fin g.nodeCount) : List (Fin g.nodeCount) :=
  (g.outNeighborsWithValues node).map (·.1)

/-- There is an edge between two nodes. -/
def Edge (u v : Fin g.nodeCount) : Prop := ∃ w, (u, v, w) ∈ g.edges

variable {g} {u v : Fin g.nodeCount}

lemma mem_outNeighborsWithValues {w : W} :
    (v, w) ∈ g.outNeighborsWithValues u ↔ (u, v, w) ∈ g.edges := by
  simp [outNeighborsWithValues, List.mem_mergeSort]

lemma mem_outNeighbors : v ∈ g.outNeighbors u ↔ g.Edge u v := by
  simp [outNeighbors, mem_outNeighborsWithValues, Edge]

end DirectedCsrGraph

end Kyzo

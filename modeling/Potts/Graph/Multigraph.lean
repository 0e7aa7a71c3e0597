/-!
# Multigraphs

A graph as its owner keeps it: numbered vertices and a list of edges in the order they were added,
with loops and parallel edges allowed. An edge is known by its place in the list.
-/

namespace Potts

/-- A graph on the vertices below `vertices`. -/
structure Multigraph where
  vertices : Nat
  edges : List (Nat × Nat)
  /-- Whether an edge is meant to lead from its first end point to its second. -/
  directed : Bool
  /-- Every end point is a vertex. -/
  endpoints_lt : ∀ e ∈ edges, e.1 < vertices ∧ e.2 < vertices

namespace Multigraph

def edgeCount (g : Multigraph) : Nat := g.edges.length

/-- The graph with these edges, unless one of them has an end point that is no vertex. -/
def ofEdges? (n : Nat) (edges : List (Nat × Nat)) (directed : Bool) : Option Multigraph :=
  if h : ∀ e ∈ edges, e.1 < n ∧ e.2 < n then some ⟨n, edges, directed, h⟩ else none

/-- The graph with one more vertex, which has no edges. -/
def addVertex (g : Multigraph) : Multigraph where
  vertices := g.vertices + 1
  edges := g.edges
  directed := g.directed
  endpoints_lt e he :=
    ⟨Nat.lt_succ_of_lt (g.endpoints_lt e he).1, Nat.lt_succ_of_lt (g.endpoints_lt e he).2⟩

/-- The graph with one more edge, unless one of its end points is no vertex. -/
def addEdge? (g : Multigraph) (a b : Nat) : Option Multigraph :=
  ofEdges? g.vertices (g.edges ++ [(a, b)]) g.directed

end Multigraph

end Potts

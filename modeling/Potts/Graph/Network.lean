import Potts.Failure.Fault
import Potts.Graph.Multigraph
import Potts.Scalar.Basic

/-!
# Networks

The weighted network that annealing and modularity work on: edges have no direction, loops are left
out, parallel edges are kept, and every weight is finite and not negative. A network is made from a
list of edges by `ofEdges` or from a graph with a list of weights by `ofGraph`; both refuse a list
that does not fit at its first fault.

Beside its edge list a network carries its adjacency rows and its total weight, and the type says
that they are the ones of the edge list.
-/

namespace Potts

structure Edge (F : Type) where
  source : Nat
  target : Nat
  weight : F
  deriving Repr

namespace Edge

variable {F : Type}

def isLoop (e : Edge F) : Bool := e.source == e.target

def top (e : Edge F) : Nat := max e.source e.target

/-- Whether the weight can be used: it is finite and not negative. -/
def isUsable [Scalar F] (e : Edge F) : Bool :=
  Scalar.isFinite e.weight && !decide (e.weight < Scalar.zero)

end Edge

/-- The neighbors of every vertex, each with the weight of the edge that leads to it, in the order
of the edges. -/
def adjacencyRows {F : Type} (size : Nat) (edges : List (Edge F)) : Array (List (Nat × F)) :=
  edges.foldr
    (fun e rows =>
      (rows.modify e.source ((e.target, e.weight) :: ·)).modify e.target
        ((e.source, e.weight) :: ·))
    (Array.replicate size [])

/-- An undirected network without loops on the vertices below `size`. -/
structure Network (F : Type) [Scalar F] where
  size : Nat
  edges : List (Edge F)
  /-- Every edge joins two different vertices and has a usable weight. -/
  edges_valid : ∀ e ∈ edges, e.source ≠ e.target ∧ e.top < size ∧ e.isUsable = true
  adjacency : Array (List (Nat × F))
  adjacency_eq : adjacency = adjacencyRows size edges
  totalWeight : F
  totalWeight_eq : totalWeight = Scalar.sum (edges.map Edge.weight)

namespace Network

variable {F : Type} [Scalar F]

/-! ## Building a network -/

/-- The network of edges that are known to join vertices: it leaves out the loops, and refuses the
list at the first weight that cannot be used, that of a loop included. -/
def build (size : Nat) (edges : List (Edge F)) (h : ∀ e ∈ edges, e.top < size) :
    Except (Error F) (Network F) :=
  match hbad : edges.zipIdx.find? fun e => !e.1.isUsable with
  | some (e, i) => .error (.invalidWeight i e.weight)
  | none =>
    .ok {
      size := size
      edges := edges.filter fun e => !e.isLoop
      edges_valid := by
        intro e he
        obtain ⟨hmem, hloop⟩ := List.mem_filter.1 he
        obtain ⟨i, hi, rfl⟩ := List.getElem_of_mem hmem
        have huse := List.find?_eq_none.1 hbad (edges[i], i)
          (List.mk_mem_zipIdx_iff_getElem?.2 (List.getElem?_eq_getElem hi))
        exact ⟨by simpa [Edge.isLoop] using hloop, h _ hmem, by simpa using huse⟩
      adjacency := adjacencyRows size (edges.filter fun e => !e.isLoop)
      adjacency_eq := rfl
      totalWeight := Scalar.sum ((edges.filter fun e => !e.isLoop).map Edge.weight)
      totalWeight_eq := rfl }

/-- The network of a list of edges, which is refused at the first edge that leads out of the
vertices below `size`, before any weight is looked at. The number of vertices that the edge needs is
counted with 64 bits. -/
def ofEdges (size : Nat) (edges : List (Edge F)) : Except (Error F) (Network F) :=
  match hout : edges.find? fun e => decide (size ≤ e.top) with
  | some e => .error (.dimensionMismatch size ((e.top + 1) % UInt64.size))
  | none => build size edges fun e he => by
      simpa using List.find?_eq_none.1 hout e he

/-- The edges of a graph with their weights; without a list of weights every edge weighs one. -/
def weightedEdges (g : Multigraph) (weights : Option (List F)) : List (Edge F) :=
  match weights with
  | none => g.edges.map fun e => ⟨e.1, e.2, Scalar.one⟩
  | some ws => (g.edges.zip ws).map fun e => ⟨e.1.1, e.1.2, e.2⟩

theorem top_lt_of_mem_weightedEdges (g : Multigraph) (weights : Option (List F)) :
    ∀ e ∈ weightedEdges g weights, e.top < g.vertices := by
  have hmax : ∀ p ∈ g.edges, ∀ w : F, (Edge.mk p.1 p.2 w).top < g.vertices := fun p hp w => by
    have := g.endpoints_lt p hp
    simp only [Edge.top]
    omega
  intro e he
  cases weights with
  | none =>
    obtain ⟨p, hp, rfl⟩ := List.mem_map.1 he
    exact hmax p hp _
  | some ws =>
    obtain ⟨⟨p, w⟩, hpw, rfl⟩ := List.mem_map.1 he
    exact hmax p (List.of_mem_zip hpw).1 w

/-- The network of a graph, its edges weighted by the list in their order; the list is refused if it
does not have one weight for each edge. -/
def ofGraph (g : Multigraph) (weights : Option (List F)) : Except (Error F) (Network F) :=
  match weights with
  | none => build g.vertices (weightedEdges g none) (top_lt_of_mem_weightedEdges g none)
  | some ws =>
    if ws.length = g.edgeCount then
      build g.vertices (weightedEdges g (some ws)) (top_lt_of_mem_weightedEdges g (some ws))
    else .error (.dimensionMismatch g.edgeCount ws.length)

/-! ## Reading a network -/

def edgeCount (net : Network F) : Nat := net.edges.length

/-- The neighbors of a vertex, with the weights of the edges that lead to them; a number that is no
vertex has none. -/
def neighbors (net : Network F) (v : Nat) : List (Nat × F) := net.adjacency[v]?.getD []

def degree (net : Network F) (v : Nat) : Nat := (net.neighbors v).length

/-- The sum of the weights of the edges at a vertex. -/
def strength (net : Network F) (v : Nat) : F := Scalar.sum ((net.neighbors v).map Prod.snd)

/-- The neighbors of a vertex, which has to be one of the network. -/
def neighborsAt (net : Network F) (v : Nat) : Checked F (List (Nat × F)) :=
  Checked.fetch net.adjacency v

def degreeAt (net : Network F) (v : Nat) : Checked F Nat := List.length <$> net.neighborsAt v

def strengthAt (net : Network F) (v : Nat) : Checked F F :=
  (fun neighbors => Scalar.sum (neighbors.map Prod.snd)) <$> net.neighborsAt v

def degrees (net : Network F) : List Nat := (List.range net.size).map net.degree

/-- The sum of all degrees, every edge counted at both of its ends. -/
def totalDegree (net : Network F) : Nat := 2 * net.edgeCount

end Network

end Potts

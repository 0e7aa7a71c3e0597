import Mathlib.Algebra.BigOperators.Group.Finset.Piecewise
import Mathlib.Algebra.BigOperators.Group.List.Basic
import Mathlib.Algebra.Ring.Nat
import Potts.Graph.Network

/-!
# Edges at a vertex

The neighbors of a vertex, read off the list of edges: every edge at the vertex has one neighbor at
its other end, and they come in the order of the edges. So neighbors are vertices, and the degrees
of all vertices sum up to twice the number of edges.
-/

namespace Potts

variable {F : Type}

/-- What a vertex finds at the other end of an edge, with the weight of the edge; nothing if the
edge is not at the vertex. -/
def Edge.across (e : Edge F) (v : Nat) : List (Nat × F) :=
  (if e.target = v then [(e.source, e.weight)] else []) ++
    if e.source = v then [(e.target, e.weight)] else []

theorem getElem?_adjacencyRows (size : Nat) (edges : List (Edge F)) (v : Nat) :
    (adjacencyRows size edges)[v]? =
      if v < size then some (edges.flatMap fun e => e.across v) else none := by
  induction edges with
  | nil => exact Array.getElem?_replicate
  | cons e edges ih =>
    have hcons : adjacencyRows size (e :: edges) =
        ((adjacencyRows size edges).modify e.source ((e.target, e.weight) :: ·)).modify e.target
          ((e.source, e.weight) :: ·) := rfl
    rw [hcons, Array.getElem?_modify, Array.getElem?_modify, ih, List.flatMap_cons, Edge.across]
    by_cases hv : v < size <;> by_cases htarget : e.target = v <;>
      by_cases hsource : e.source = v <;> simp [hv, htarget, hsource]

theorem Edge.source_le_top (e : Edge F) : e.source ≤ e.top := Nat.le_max_left _ _

theorem Edge.target_le_top (e : Edge F) : e.target ≤ e.top := Nat.le_max_right _ _

theorem Edge.of_mem_across {e : Edge F} {v : Nat} {neighbor : Nat × F} (h : neighbor ∈ e.across v) :
    neighbor.1 ≤ e.top ∧ neighbor.2 = e.weight := by
  rcases List.mem_append.1 h with h | h
  all_goals
    split at h
    · rw [List.mem_singleton.1 h]
      simp [Edge.top]
    · cases h

theorem Edge.length_across (e : Edge F) (v : Nat) :
    (e.across v).length = (if e.target = v then 1 else 0) + if e.source = v then 1 else 0 := by
  rw [Edge.across, List.length_append]
  split <;> split <;> rfl

theorem Edge.sum_length_across {size : Nat} {e : Edge F} (h : e.top < size) :
    ∑ v ∈ Finset.range size, (e.across v).length = 2 := by
  have htarget : e.target < size := lt_of_le_of_lt e.target_le_top h
  have hsource : e.source < size := lt_of_le_of_lt e.source_le_top h
  simp only [Edge.length_across, Finset.sum_add_distrib, Finset.sum_ite_eq, Finset.mem_range,
    htarget, hsource, if_true]

theorem sum_map_sum {α ι M : Type} [AddCommMonoid M] (l : List α) (s : Finset ι) (f : α → ι → M) :
    (l.map fun a => ∑ i ∈ s, f a i).sum = ∑ i ∈ s, (l.map fun a => f a i).sum :=
  Multiset.sum_map_sum (m := (l : Multiset α))

namespace Network

variable [Scalar F] (net : Network F) {v : Nat} {e : Edge F}

theorem source_lt (he : e ∈ net.edges) : e.source < net.size :=
  lt_of_le_of_lt e.source_le_top (net.edges_valid e he).2.1

theorem target_lt (he : e ∈ net.edges) : e.target < net.size :=
  lt_of_le_of_lt e.target_le_top (net.edges_valid e he).2.1

theorem neighbors_eq (hv : v < net.size) :
    net.neighbors v = net.edges.flatMap fun e => e.across v := by
  rw [neighbors, net.adjacency_eq, getElem?_adjacencyRows, if_pos hv, Option.getD_some]

theorem neighborsAt_eq_ok (hv : v < net.size) : net.neighborsAt v = .ok (net.neighbors v) := by
  rw [neighborsAt, neighbors, Checked.fetch, net.adjacency_eq, getElem?_adjacencyRows, if_pos hv]
  rfl

theorem degreeAt_eq_ok (hv : v < net.size) : net.degreeAt v = .ok (net.degree v) := by
  rw [degreeAt, net.neighborsAt_eq_ok hv]
  rfl

theorem eq_degree_of_degreeAt {degree : Nat} (h : net.degreeAt v = .ok degree) :
    degree = net.degree v := by
  rw [degreeAt, neighborsAt, Checked.fetch] at h
  rw [Network.degree, neighbors]
  cases hrow : net.adjacency[v]? with
  | none =>
    rw [hrow] at h
    cases h
  | some row =>
    rw [hrow] at h
    cases h
    rfl

theorem strengthAt_eq_ok (hv : v < net.size) : net.strengthAt v = .ok (net.strength v) := by
  rw [strengthAt, net.neighborsAt_eq_ok hv]
  rfl

theorem exists_edge_of_mem_neighbors {neighbor : Nat × F} (h : neighbor ∈ net.neighbors v) :
    ∃ e ∈ net.edges, neighbor ∈ e.across v := by
  rw [neighbors, net.adjacency_eq, getElem?_adjacencyRows] at h
  split at h
  · exact List.mem_flatMap.1 h
  · cases h

theorem neighbor_lt {neighbor : Nat × F} (h : neighbor ∈ net.neighbors v) :
    neighbor.1 < net.size := by
  obtain ⟨e, he, hacross⟩ := net.exists_edge_of_mem_neighbors h
  exact lt_of_le_of_lt (Edge.of_mem_across hacross).1 (net.edges_valid e he).2.1

theorem degree_eq (hv : v < net.size) :
    net.degree v = (net.edges.map fun e => (e.across v).length).sum := by
  rw [degree, net.neighbors_eq hv, List.length_flatMap]

theorem sum_degree_eq {vertices : Finset Nat} (h : vertices ⊆ Finset.range net.size) :
    ∑ v ∈ vertices, net.degree v =
      (net.edges.map fun e => ∑ v ∈ vertices, (e.across v).length).sum := by
  have hdegree : ∀ v ∈ vertices, net.degree v =
      (net.edges.map fun e => (e.across v).length).sum := fun v hv =>
    net.degree_eq (Finset.mem_range.1 (h hv))
  rw [Finset.sum_congr rfl hdegree, sum_map_sum]

theorem sum_degree : ∑ v ∈ Finset.range net.size, net.degree v = net.totalDegree := by
  have htwo : (net.edges.map fun e => ∑ v ∈ Finset.range net.size, (e.across v).length) =
      net.edges.map fun _ => 2 :=
    List.map_congr_left fun e he => Edge.sum_length_across (net.edges_valid e he).2.1
  rw [net.sum_degree_eq subset_rfl, htwo, List.map_const', List.sum_replicate_nat, totalDegree,
    edgeCount, mul_comm]

end Network

end Potts

import Mathlib.Algebra.Order.BigOperators.Group.List
import Potts.Proofs.Graph.Incidence
import Potts.Proofs.Graph.Network

/-!
# Strengths

In exact arithmetic the weights of a network are not negative, so some of the edges at a vertex
weigh at least zero and at most the strength of the vertex. When all weights are one, a strength is
a degree.
-/

namespace Potts.Network

variable {K : Type} [ExactScalar K] (net : Network K) {v : Nat}

theorem neighbor_weight_nonneg {neighbor : Nat × K} (h : neighbor ∈ net.neighbors v) :
    0 ≤ neighbor.2 := by
  obtain ⟨e, he, hacross⟩ := net.exists_edge_of_mem_neighbors h
  rw [(Edge.of_mem_across hacross).2]
  exact Edge.isUsable_iff.1 (net.edges_valid e he).2.2

theorem sum_filter_nonneg (v : Nat) (kept : Nat × K → Bool) :
    0 ≤ Scalar.sum (((net.neighbors v).filter kept).map Prod.snd) := by
  rw [Scalar.sum_eq]
  apply List.sum_nonneg
  intro weight hweight
  obtain ⟨neighbor, hneighbor, rfl⟩ := List.mem_map.1 hweight
  exact net.neighbor_weight_nonneg (List.mem_filter.1 hneighbor).1

theorem strength_nonneg (v : Nat) : 0 ≤ net.strength v := by
  have hnonneg := net.sum_filter_nonneg v fun _ => true
  rwa [List.filter_true] at hnonneg

theorem sum_filter_le_strength (v : Nat) (kept : Nat × K → Bool) :
    Scalar.sum (((net.neighbors v).filter kept).map Prod.snd) ≤ net.strength v := by
  rw [strength, Scalar.sum_eq, Scalar.sum_eq]
  refine List.Sublist.sum_le_sum (List.filter_sublist.map Prod.snd) fun weight hweight => ?_
  obtain ⟨neighbor, hneighbor, rfl⟩ := List.mem_map.1 hweight
  exact net.neighbor_weight_nonneg hneighbor

theorem strength_eq_degree (hunit : ∀ e ∈ net.edges, e.weight = 1) (v : Nat) :
    net.strength v = (net.degree v : K) := by
  have hone : ∀ weight ∈ (net.neighbors v).map Prod.snd, weight = 1 := by
    intro weight hweight
    obtain ⟨neighbor, hneighbor, rfl⟩ := List.mem_map.1 hweight
    obtain ⟨e, he, hacross⟩ := net.exists_edge_of_mem_neighbors hneighbor
    rw [(Edge.of_mem_across hacross).2, hunit e he]
  rw [strength, Scalar.sum_eq, List.eq_replicate_of_mem hone, List.sum_replicate, nsmul_one,
    List.length_map, degree]

end Potts.Network

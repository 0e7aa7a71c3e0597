import Mathlib.Algebra.Order.Field.Basic
import Potts.Graph.Network
import Potts.Proofs.Scalar.Exact

/-!
# When a graph makes a network

A list of edges between vertices makes a network when all of its weights can be used, and a graph
does when its list of weights also has the right length. Otherwise there is an error.
-/

namespace Potts

theorem Edge.isUsable_iff {K : Type} [ExactScalar K] {e : Edge K} :
    e.isUsable = true ↔ 0 ≤ e.weight := by
  have hfinite : Scalar.isFinite e.weight = true := rfl
  rw [isUsable, hfinite, Bool.true_and, Bool.not_eq_true', decide_eq_false_iff_not, Scalar.zero_eq,
    not_lt]

namespace Network

variable {F : Type} [Scalar F] {size : Nat} {edges : List (Edge F)} {g : Multigraph}
  {weights : Option (List F)}

theorem build_eq_ok (h : ∀ e ∈ edges, e.top < size)
    (hnone : edges.zipIdx.find? (fun e => !e.1.isUsable) = none) :
    ∃ net, build size edges h = .ok net ∧ net.size = size ∧
      net.edges = edges.filter fun e => !e.isLoop := by
  unfold build
  split
  · rename_i hsome
    rw [hnone] at hsome
    cases hsome
  · exact ⟨_, rfl, rfl, rfl⟩

theorem build_eq_error (h : ∀ e ∈ edges, e.top < size) {bad : Edge F × Nat}
    (hsome : edges.zipIdx.find? (fun e => !e.1.isUsable) = some bad) :
    build size edges h = .error (.invalidWeight bad.2 bad.1.weight) := by
  unfold build
  split
  · rename_i hbad
    rw [hsome] at hbad
    cases hbad
    rfl
  · rename_i hnone
    rw [hsome] at hnone
    cases hnone

theorem build_of_usable (h : ∀ e ∈ edges, e.top < size) (husable : ∀ e ∈ edges, e.isUsable = true) :
    ∃ net, build size edges h = .ok net ∧ net.size = size := by
  have hnone : edges.zipIdx.find? (fun e => !e.1.isUsable) = none := by
    refine List.find?_eq_none.2 fun e he => ?_
    rw [husable e.1 (List.fst_mem_of_mem_zipIdx he)]
    exact Bool.false_ne_true
  obtain ⟨net, hnet, hsize, -⟩ := build_eq_ok h hnone
  exact ⟨net, hnet, hsize⟩

theorem isUsable_of_find?_eq_none
    (hnone : edges.zipIdx.find? (fun e => !e.1.isUsable) = none) {e : Edge F} (he : e ∈ edges) :
    e.isUsable = true := by
  obtain ⟨i, hi, rfl⟩ := List.getElem_of_mem he
  have hmem : (edges[i], i) ∈ edges.zipIdx :=
    List.mk_mem_zipIdx_iff_getElem?.2 (List.getElem?_eq_getElem hi)
  simpa using List.find?_eq_none.1 hnone _ hmem

theorem build_of_unusable (h : ∀ e ∈ edges, e.top < size) {e : Edge F} (he : e ∈ edges)
    (hunusable : e.isUsable = false) : ∃ error, build size edges h = .error error := by
  cases hbad : edges.zipIdx.find? fun e => !e.1.isUsable with
  | some bad => exact ⟨_, build_eq_error h hbad⟩
  | none =>
    rw [isUsable_of_find?_eq_none hbad he] at hunusable
    cases hunusable

/-- A list of weights fits a graph: it has one weight for each edge. -/
def FitsWeights (g : Multigraph) (weights : Option (List F)) : Prop :=
  ∀ ws, weights = some ws → ws.length = g.edgeCount

theorem ofGraph_of_fits (hfits : FitsWeights g weights) :
    ofGraph g weights =
      build g.vertices (weightedEdges g weights) (top_lt_of_mem_weightedEdges g weights) := by
  cases weights with
  | none => rfl
  | some ws => rw [ofGraph, if_pos (hfits ws rfl)]

theorem ofGraph_of_usable (hfits : FitsWeights g weights)
    (husable : ∀ e ∈ weightedEdges g weights, e.isUsable = true) :
    ∃ net, ofGraph g weights = .ok net ∧ net.size = g.vertices := by
  rw [ofGraph_of_fits hfits]
  exact build_of_usable (top_lt_of_mem_weightedEdges g weights) husable

theorem ofGraph_of_unusable
    (h : ¬FitsWeights g weights ∨ ∃ e ∈ weightedEdges g weights, e.isUsable = false) :
    ∃ error, ofGraph g weights = .error error := by
  by_cases hfits : FitsWeights g weights
  · obtain ⟨e, he, hunusable⟩ := h.resolve_left (not_not.2 hfits)
    rw [ofGraph_of_fits hfits]
    exact build_of_unusable (top_lt_of_mem_weightedEdges g weights) he hunusable
  · cases weights with
    | none => exact absurd (fun ws hws => by cases hws) hfits
    | some ws =>
      have hlength : ws.length ≠ g.edgeCount := fun hlength => hfits fun ws' hws' => by
        cases hws'
        exact hlength
      exact ⟨_, by rw [ofGraph, if_neg hlength]⟩

theorem size_of_ofGraph {net : Network F} (h : ofGraph g weights = .ok net) :
    net.size = g.vertices := by
  by_cases hbad : ¬FitsWeights g weights ∨ ∃ e ∈ weightedEdges g weights, e.isUsable = false
  · obtain ⟨e, he⟩ := ofGraph_of_unusable hbad
    rw [he] at h
    cases h
  · push Not at hbad
    obtain ⟨net', hnet', hsize⟩ := ofGraph_of_usable hbad.1 fun e he => by
      simpa using hbad.2 e he
    rw [hnet'] at h
    cases h
    exact hsize

end Network

end Potts

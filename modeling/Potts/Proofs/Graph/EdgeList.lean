import Mathlib.Algebra.BigOperators.Ring.Finset
import Mathlib.Algebra.BigOperators.Ring.List
import Potts.Proofs.Graph.DegreeClass
import Potts.Proofs.Graph.Incidence
import Potts.Proofs.Graph.Network
import Potts.Scalar.Binary64

/-!
# The network of a list of edges

A list of edges is refused at the first edge that leads out of the vertices, else at the first
weight that cannot be used, that of a loop included. Otherwise it makes a network, which keeps its
edges that are no loops in four ways: as a list, as the neighbors of every vertex, as degree classes
and as a total weight. `ofEdges_represents` says how these agree with the list that was given.
-/

namespace Potts

variable {F : Type}

/-! ## The first element of a kind -/

section First

variable {α : Type} {l : List α} {kind : α → Prop} {test : α → Bool}

/-- The element at the place `i` of a list is the first one of a kind. -/
structure FirstAt (l : List α) (kind : α → Prop) (i : Nat) (a : α) : Prop where
  getElem?_eq : l[i]? = some a
  of_kind : kind a
  not_before : ∀ j < i, ∀ b, l[j]? = some b → ¬kind b

theorem exists_firstAt_of_find? (htest : ∀ a, test a = true ↔ kind a) {a : α}
    (h : l.find? test = some a) : ∃ i, FirstAt l kind i a := by
  obtain ⟨ha, i, hi, rfl, hbefore⟩ := List.find?_eq_some_iff_getElem.1 h
  refine ⟨i, List.getElem?_eq_getElem hi, (htest _).1 ha, fun j hj b hb hkind => ?_⟩
  obtain ⟨hlt, rfl⟩ := List.getElem?_eq_some_iff.1 hb
  have hnot := hbefore j hj
  rw [(htest _).2 hkind] at hnot
  cases hnot

theorem firstAt_of_find?_zipIdx (htest : ∀ a, test a = true ↔ kind a) {found : α × Nat}
    (h : l.zipIdx.find? (fun a => test a.1) = some found) :
    FirstAt l kind found.2 found.1 := by
  have htest' : ∀ a : α × Nat, test a.1 = true ↔ kind a.1 := fun a => htest a.1
  obtain ⟨i, hi, hkind, hbefore⟩ := exists_firstAt_of_find? htest' h
  have hmem := List.mk_mem_zipIdx_iff_getElem?.1 (List.mem_of_find?_eq_some h)
  have hplace : found.2 = i := by
    rw [List.getElem?_zipIdx] at hi
    obtain ⟨a, -, rfl⟩ := Option.map_eq_some_iff.1 hi
    exact Nat.zero_add i
  refine ⟨hmem, hkind, fun j hj b hb => hbefore j (hplace ▸ hj) (b, j) ?_⟩
  rw [List.getElem?_zipIdx, hb, Option.map_some, Nat.zero_add]

end First

/-! ## Neighbors -/

namespace Edge

variable {e : Edge F}

/-- The other end of an edge at a vertex, with the weight of the edge. -/
def opposite? (e : Edge F) (v : Nat) : Option (Nat × F) :=
  if e.source = v then some (e.target, e.weight)
  else if e.target = v then some (e.source, e.weight)
  else none

theorem across_eq_toList (h : e.source ≠ e.target) (v : Nat) :
    e.across v = (e.opposite? v).toList := by
  unfold across opposite?
  by_cases hsource : e.source = v
  · have htarget : e.target ≠ v := fun heq => h (hsource.trans heq.symm)
    simp [hsource, htarget]
  · by_cases htarget : e.target = v <;> simp [hsource, htarget]

theorem weights_across_comm (e : Edge F) (u v : Nat) :
    ((e.across v).filter fun neighbor => neighbor.1 == u).map Prod.snd =
      ((e.across u).filter fun neighbor => neighbor.1 == v).map Prod.snd := by
  unfold across
  by_cases huv : u = v
  · rw [huv]
  · by_cases hsource : e.source = v <;> by_cases htarget : e.target = v <;>
      by_cases hsource' : e.source = u <;> by_cases htarget' : e.target = u <;> simp_all

end Edge

namespace Network

variable [Scalar F] (net : Network F) {u v : Nat}

/-- The weights of the edges that lead from one vertex to another, in the order of the edges. -/
def weightsTo (net : Network F) (v u : Nat) : List F :=
  ((net.neighbors v).filter fun neighbor => neighbor.1 == u).map Prod.snd

theorem weightsTo_comm (hu : u < net.size) (hv : v < net.size) :
    net.weightsTo v u = net.weightsTo u v := by
  unfold weightsTo
  rw [net.neighbors_eq hu, net.neighbors_eq hv]
  simp only [List.filter_flatMap, List.map_flatMap]
  exact List.flatMap_congr fun e _ => e.weights_across_comm u v

theorem neighbors_eq_filterMap (hv : v < net.size) :
    net.neighbors v = net.edges.filterMap fun e => e.opposite? v := by
  rw [net.neighbors_eq hv, List.filterMap_eq_flatMap_toList]
  exact List.flatMap_congr fun e he => Edge.across_eq_toList (net.edges_valid e he).1 v

theorem ne_of_mem_neighbors {neighbor : Nat × F} (h : neighbor ∈ net.neighbors v) :
    neighbor.1 ≠ v := by
  obtain ⟨e, he, hacross⟩ := net.exists_edge_of_mem_neighbors h
  have hloop := (net.edges_valid e he).1
  unfold Edge.across at hacross
  rcases List.mem_append.1 hacross with hacross | hacross
  · split at hacross
    · rename_i htarget
      rw [List.mem_singleton.1 hacross, ← htarget]
      exact hloop
    · cases hacross
  · split at hacross
    · rename_i hsource
      rw [List.mem_singleton.1 hacross, ← hsource]
      exact hloop.symm
    · cases hacross

end Network

/-! ## Strengths -/

section Exact

variable {K : Type} [ExactScalar K]

theorem Edge.sum_across (e : Edge K) (v : Nat) :
    ((e.across v).map Prod.snd).sum = ((e.across v).length : K) * e.weight := by
  have hweights : (e.across v).map Prod.snd = List.replicate (e.across v).length e.weight := by
    rw [List.eq_replicate_iff, List.length_map]
    refine ⟨rfl, fun weight hweight => ?_⟩
    obtain ⟨neighbor, hneighbor, rfl⟩ := List.mem_map.1 hweight
    exact (Edge.of_mem_across hneighbor).2
  rw [hweights, List.sum_replicate, nsmul_eq_mul]

theorem Network.sum_strength (net : Network K) :
    ∑ v ∈ Finset.range net.size, net.strength v = 2 * net.totalWeight := by
  have hstrength : ∀ v ∈ Finset.range net.size, net.strength v =
      (net.edges.map fun e => ((e.across v).length : K) * e.weight).sum := by
    intro v hv
    rw [strength, Scalar.sum_eq, net.neighbors_eq (Finset.mem_range.1 hv), List.map_flatMap,
      List.flatMap_def, List.sum_flatten, List.map_map]
    exact congrArg List.sum (List.map_congr_left fun e _ => e.sum_across v)
  have htwice : ∀ e ∈ net.edges,
      ∑ v ∈ Finset.range net.size, ((e.across v).length : K) * e.weight = 2 * e.weight := by
    intro e he
    rw [← Finset.sum_mul, ← Nat.cast_sum, Edge.sum_length_across (net.edges_valid e he).2.1,
      Nat.cast_ofNat]
  calc ∑ v ∈ Finset.range net.size, net.strength v
      = ∑ v ∈ Finset.range net.size,
          (net.edges.map fun e => ((e.across v).length : K) * e.weight).sum :=
        Finset.sum_congr rfl hstrength
    _ = (net.edges.map fun e =>
          ∑ v ∈ Finset.range net.size, ((e.across v).length : K) * e.weight).sum :=
        (sum_map_sum ..).symm
    _ = (net.edges.map fun e => 2 * e.weight).sum :=
        congrArg List.sum (List.map_congr_left htwice)
    _ = 2 * net.totalWeight := by
        rw [List.sum_map_mul_left, net.totalWeight_eq, Scalar.sum_eq]

end Exact

/-! ## Representation -/

namespace Network

variable [Scalar F] {size : Nat} {edges : List (Edge F)} {net : Network F}

/-- The network represents the edges of a list that are no loops. -/
structure Represents (net : Network F) (size : Nat) (edges : List (Edge F)) : Prop where
  size_eq : net.size = size
  /-- The edges that are no loops, in their order. -/
  edges_eq : net.edges = edges.filter fun e => decide (e.source ≠ e.target)
  totalWeight_eq : net.totalWeight = Scalar.sum (net.edges.map Edge.weight)
  /-- The neighbors of a vertex are the other ends of its edges, in the order of the edges. -/
  neighbors_eq : ∀ v < size, net.neighbors v = net.edges.filterMap fun e => e.opposite? v
  /-- A vertex is a neighbor of another one as often as the other way round, with the same weights.
  -/
  weightsTo_comm : ∀ u < size, ∀ v < size, net.weightsTo v u = net.weightsTo u v
  not_self : ∀ v < size, ∀ neighbor ∈ net.neighbors v, neighbor.1 ≠ v
  sum_degree : ∑ v ∈ Finset.range size, net.degree v = net.totalDegree
  totalDegree_eq : net.totalDegree = 2 * net.edgeCount
  ascending : net.degreeClasses.Pairwise (· < ·)
  mem_degreeClasses : ∀ degree, degree ∈ net.degreeClasses ↔ ∃ v < size, net.degree v = degree
  /-- In exact arithmetic the strengths sum up to twice the total weight. -/
  sum_strength : Scalar.IsExact F →
    Scalar.sum ((List.range size).map net.strength) = Scalar.two * net.totalWeight

/-- A network represents every list whose edges without the loops are its own. -/
theorem represents (hedges : net.edges = edges.filter fun e => decide (e.source ≠ e.target)) :
    net.Represents net.size edges where
  size_eq := rfl
  edges_eq := hedges
  totalWeight_eq := net.totalWeight_eq
  neighbors_eq v hv := net.neighbors_eq_filterMap hv
  weightsTo_comm u hu v hv := net.weightsTo_comm hu hv
  not_self v _ neighbor hneighbor := net.ne_of_mem_neighbors hneighbor
  sum_degree := net.sum_degree
  totalDegree_eq := rfl
  ascending := SortedSet.pairwise_toList _
  mem_degreeClasses degree := net.mem_degreeClasses
  sum_strength := by
    rintro ⟨exact, rfl⟩
    rw [Scalar.sum_eq, Scalar.two_eq]
    exact net.sum_strength

theorem ofEdges_of_find?_eq_some {e : Edge F}
    (h : edges.find? (fun e => decide (size ≤ e.top)) = some e) :
    ofEdges size edges = .error (.dimensionMismatch size ((1 + e.top) % UInt64.size)) := by
  unfold ofEdges
  split
  · rename_i hsome
    rw [h] at hsome
    cases hsome
    rw [Nat.add_comm]
  · rename_i hnone
    rw [h] at hnone
    cases hnone

theorem ofEdges_of_lt (h : ∀ e ∈ edges, e.top < size) :
    ofEdges size edges = build size edges h := by
  unfold ofEdges
  split
  · rename_i e hsome
    have hle := List.find?_some hsome
    have hlt := h e (List.mem_of_find?_eq_some hsome)
    rw [decide_eq_true_eq] at hle
    omega
  · rfl

/-- A list of edges has one of three answers. If an edge leads out of the vertices, the first such
edge is reported by the number of vertices that its larger end point needs, whatever the weights
are; a number that 64 bits do not hold is reported by its last 64 bits. Else, if a weight is
negative or not finite, the first such weight is reported with the place of its edge, be it a loop
or not. Else there is a network that represents the list. -/
theorem ofEdges_represents (size : Nat) (edges : List (Edge F)) :
    (∃ i e, FirstAt edges (fun e => size ≤ e.source ∨ size ≤ e.target) i e ∧
      ofEdges size edges =
        .error (.dimensionMismatch size ((1 + max e.source e.target) % 2 ^ 64)) ∧
      (1 + max e.source e.target < 2 ^ 64 →
        ofEdges size edges = .error (.dimensionMismatch size (1 + max e.source e.target)))) ∨
    (∀ e ∈ edges, e.source < size ∧ e.target < size) ∧
      ((∃ i e, FirstAt edges
          (fun e => Scalar.isFinite e.weight = false ∨ e.weight < Scalar.zero) i e ∧
        ofEdges size edges = .error (.invalidWeight i e.weight)) ∨
      (∀ e ∈ edges, Scalar.isFinite e.weight = true ∧ ¬e.weight < Scalar.zero) ∧
        ∃ net, ofEdges size edges = .ok net ∧ net.Represents size edges) := by
  cases hout : edges.find? fun e => decide (size ≤ e.top) with
  | some e =>
    left
    have htest : ∀ e : Edge F, decide (size ≤ e.top) = true ↔
        size ≤ e.source ∨ size ≤ e.target := fun e => by
      rw [decide_eq_true_eq, Edge.top, le_max_iff]
    obtain ⟨i, hfirst⟩ := exists_firstAt_of_find? htest hout
    have hreport := ofEdges_of_find?_eq_some hout
    refine ⟨i, e, hfirst, hreport, fun hfits => ?_⟩
    rw [hreport, Edge.top, Nat.mod_eq_of_lt (show _ < UInt64.size from hfits)]
  | none =>
    right
    have htop : ∀ e ∈ edges, e.top < size := fun e he => by
      simpa using List.find?_eq_none.1 hout e he
    refine ⟨fun e he => max_lt_iff.1 (htop e he), ?_⟩
    rw [ofEdges_of_lt htop]
    cases hbad : edges.zipIdx.find? fun e => !e.1.isUsable with
    | some bad =>
      left
      have htest : ∀ e : Edge F, (!e.isUsable) = true ↔
          Scalar.isFinite e.weight = false ∨ e.weight < Scalar.zero := fun e => by
        simp [Edge.isUsable, or_iff_not_imp_left]
      exact ⟨bad.2, bad.1, firstAt_of_find?_zipIdx htest hbad, build_eq_error htop hbad⟩
    | none =>
      right
      refine ⟨fun e he => ?_, ?_⟩
      · simpa [Edge.isUsable] using isUsable_of_find?_eq_none hbad he
      · obtain ⟨net, hnet, rfl, hedges⟩ := build_eq_ok htop hbad
        refine ⟨net, hnet, represents ?_⟩
        rw [hedges]
        refine List.filter_congr fun e _ => ?_
        rw [Edge.isLoop, Bool.eq_iff_iff]
        simp

/-- The last number that 64 bits hold is an end point that needs one vertex more than they count,
so no vertices are reported. -/
theorem ofEdges_wrapped :
    ofEdges 2 [(⟨2 ^ 64 - 1, 0, 1⟩ : Edge Float)] = .error (.dimensionMismatch 2 0) ∧
      ofEdges 2 [(⟨2 ^ 64 - 1, 0, 1⟩ : Edge Float)] ≠
        .error (.dimensionMismatch 2 (1 + max (2 ^ 64 - 1) 0)) := by
  have hfound : [(⟨2 ^ 64 - 1, 0, 1⟩ : Edge Float)].find? (fun e => decide (2 ≤ e.top)) =
      some ⟨2 ^ 64 - 1, 0, 1⟩ := rfl
  have hzero : (1 + max (2 ^ 64 - 1) 0) % UInt64.size = 0 := by decide
  have hreport : ofEdges 2 [(⟨2 ^ 64 - 1, 0, 1⟩ : Edge Float)] =
      .error (.dimensionMismatch 2 0) := by
    rw [ofEdges_of_find?_eq_some hfound, Edge.top, hzero]
  refine ⟨hreport, ?_⟩
  rw [hreport]
  intro h
  injection h with h
  injection h with _ h
  exact absurd h (by decide)

end Network

end Potts

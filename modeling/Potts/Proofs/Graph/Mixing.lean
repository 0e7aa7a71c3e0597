import Mathlib.Algebra.BigOperators.Group.Finset.Piecewise
import Potts.Proofs.Graph.DegreeClass
import Potts.Proofs.Graph.Incidence

/-!
# How degrees are joined

The ends of the edges, counted by the degree of their vertex and by the degree at the other end of
their edge. An edge between two vertices of one degree is counted at both of its ends, so the counts
are symmetric, and those at one degree sum up to the degree sum of its vertices.
-/

namespace Potts.Network

variable {F : Type} [Scalar F] (net : Network F) {degree degree' : Nat}

/-! ## Degrees that occur -/

/-- The degrees that occur in a network, as a set. -/
def degreeSet : Finset Nat := (Finset.range net.size).image net.degree

/-- The number of vertices of a degree. -/
def classSize (degree : Nat) : Nat := ((Finset.range net.size).filter (net.degree · = degree)).card

theorem degree_mem_degreeSet {v : Nat} (hv : v < net.size) : net.degree v ∈ net.degreeSet :=
  Finset.mem_image_of_mem _ (Finset.mem_range.2 hv)

theorem toFinset_degreeClasses : net.degreeClasses.toFinset = net.degreeSet := by
  ext degree
  rw [List.mem_toFinset, mem_degreeClasses, degreeSet, Finset.mem_image]
  simp only [Finset.mem_range]

theorem mem_degreeSet_of_getElem? {c : Nat} (h : net.degreeClasses[c]? = some degree) :
    degree ∈ net.degreeSet := by
  rw [← toFinset_degreeClasses, List.mem_toFinset]
  exact List.mem_of_getElem? h

theorem sum_map_degreeClasses {M : Type} [AddCommMonoid M] (f : Nat → M) :
    (net.degreeClasses.map f).sum = ∑ degree ∈ net.degreeSet, f degree := by
  rw [← toFinset_degreeClasses, List.sum_toFinset f net.nodup_degreeClasses]

theorem classSize_pos (h : degree ∈ net.degreeSet) : 0 < net.classSize degree := by
  obtain ⟨v, hv, rfl⟩ := Finset.mem_image.1 h
  exact Finset.card_pos.2 ⟨v, Finset.mem_filter.2 ⟨hv, rfl⟩⟩

theorem sum_degree_comp {M : Type} [AddCommMonoid M] (f : Nat → M) :
    ∑ v ∈ Finset.range net.size, f (net.degree v) =
      ∑ degree ∈ net.degreeSet, net.classSize degree • f degree :=
  Finset.sum_comp f net.degree

/-! ## Ends of edges by degree -/

/-- The ends of an edge at one degree that have another degree at the other end. -/
def endsOf (degree degree' : Nat) (e : Edge F) : Nat :=
  (if net.degree e.source = degree ∧ net.degree e.target = degree' then 1 else 0) +
    if net.degree e.target = degree ∧ net.degree e.source = degree' then 1 else 0

/-- The number of edge ends at one degree that have another degree at the other end. -/
def mixing (degree degree' : Nat) : Nat := (net.edges.map (net.endsOf degree degree')).sum

theorem mixing_comm (degree degree' : Nat) :
    net.mixing degree degree' = net.mixing degree' degree := by
  refine congrArg List.sum (List.map_congr_left fun e _ => ?_)
  rw [endsOf, endsOf, add_comm]
  simp only [and_comm]

theorem sum_mixing (degree : Nat) :
    ∑ degree' ∈ net.degreeSet, net.mixing degree degree' = degree * net.classSize degree := by
  have hends : ∀ e ∈ net.edges, ∑ degree' ∈ net.degreeSet, net.endsOf degree degree' e =
      ∑ v ∈ (Finset.range net.size).filter (net.degree · = degree), (e.across v).length := by
    intro e he
    have hsource := net.source_lt he
    have htarget := net.target_lt he
    simp only [endsOf, Edge.length_across, Finset.sum_add_distrib, ite_and, Finset.sum_ite_eq,
      Finset.sum_ite_irrel, Finset.sum_const_zero, Finset.mem_filter, Finset.mem_range, hsource,
      htarget, net.degree_mem_degreeSet hsource, net.degree_mem_degreeSet htarget, if_true,
      true_and]
    exact add_comm _ _
  have hdegree : ∀ v ∈ (Finset.range net.size).filter (net.degree · = degree),
      net.degree v = degree := fun v hv => (Finset.mem_filter.1 hv).2
  simp only [mixing]
  rw [← sum_map_sum, List.map_congr_left hends, ← net.sum_degree_eq (Finset.filter_subset _ _),
    Finset.sum_const_nat hdegree, mul_comm, classSize]

end Potts.Network

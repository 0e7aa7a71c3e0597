import Potts.NullModel.Independent
import Potts.NullModel.Uncorrelated
import Potts.Proofs.Graph.Incidence
import Potts.Proofs.Partition.Population

/-!
# The null models that only count

The independent and the uncorrelated null model keep whole numbers: a population, and the degree sum
of every label. `Follows` says that these are the numbers of a list of labels. It holds of the model
that is built from the labels, no move of a vertex faults, and a move keeps it. What the models
expect is computed from these numbers alone.
-/

namespace Potts.NullModel

open Checked Potts.Partition

variable {F : Type} [Scalar F] {net : Network F} {labels : List Nat} {v source : Nat}

/-! ## The independent null model -/

namespace Independent

variable {m : Independent F}

/-- The model has the density of the network and counts the labels. -/
structure Follows (net : Network F) (m : Independent F) (labels : List Nat) : Prop where
  density_eq : m.density = (ofLabels net []).density
  counts : m.population.Counts labels

theorem follows_ofLabels (net : Network F) (labels : List Nat) :
    Follows net (ofLabels net labels) labels :=
  ⟨rfl, Population.counts_ofLabels labels⟩

theorem Follows.expected_eq (h : Follows net m labels) (label : Nat) :
    m.expected label = (ofLabels net []).density * (labels.count label : F) := by
  rw [expected, h.density_eq, h.counts.count_eq]

theorem Follows.yields_update (h : Follows net m labels) (hv : labels[v]? = some source)
    (target : Nat) :
    Yields (m.update source target) (Follows net · (labels.set v target)) := by
  refine (h.counts.yields_transfer hv target).bind fun population hp => yields_pure ?_
  exact ⟨h.density_eq, hp⟩

end Independent

/-! ## The uncorrelated null model -/

namespace Uncorrelated

variable {m : Uncorrelated}

/-- The model knows the sum of all degrees and the degree sum of every label. -/
structure Follows (net : Network F) (m : Uncorrelated) (labels : List Nat) : Prop where
  total_eq : m.total = net.totalDegree
  amount_eq : ∀ label, m.sums.amount label = heldSum net.degree labels label

theorem Follows.expected_eq (h : Follows net m labels) (degree label : Nat) :
    (m.expected degree label : F) =
      if net.totalDegree = 0 then Scalar.zero
      else ((degree * heldSum net.degree labels label : Nat) : F) / (net.totalDegree : F) := by
  rw [expected, h.total_eq, h.amount_eq]

theorem yields_addVertex {sums : Tally} {degree : Nat} {held : Nat × Nat}
    (hheld : held.2 < net.size) (hdegree : net.degree held.2 = degree) :
    Yields (addVertex net sums held) fun sums' =>
      ∀ label, sums'.amount label = sums.amount label + if label = held.1 then degree else 0 := by
  rw [addVertex, net.degreeAt_eq_ok hheld, ok_bind, hdegree]
  refine yields_pure fun label => ?_
  split
  · exact Tally.amount_raise sums held.1 degree label
  · rename_i hzero
    have : degree = 0 := by omega
    simp [this]

theorem yields_ofLabels (hlabels : labels.length ≤ net.size) :
    Yields (ofLabels net labels) (Follows net · labels) := by
  have key : Yields (labels.zipIdx.foldlM (addVertex net) SortedMap.empty) fun sums =>
      ∀ label, sums.amount label = heldSum net.degree labels label := by
    induction labels using List.reverseRecOn with
    | nil => exact yields_pure fun _ => rfl
    | append_singleton labels a ih =>
      rw [List.length_append, List.length_singleton] at hlabels
      rw [List.zipIdx_append, List.foldlM_append]
      refine (ih (by omega)).bind fun sums hsums => ?_
      rw [List.zipIdx_singleton, List.foldlM_cons]
      refine (yields_addVertex (by simp only [Nat.zero_add]; omega) rfl).bind fun sums' hsums' => ?_
      refine yields_pure fun label => ?_
      rw [hsums', hsums, heldSum_concat, Nat.zero_add]
  exact key.bind fun sums hsums => yields_pure ⟨rfl, hsums⟩

theorem Follows.yields_update (h : Follows net m labels) (hv : labels[v]? = some source)
    (target : Nat) :
    Yields (m.update (net.degree v) source target : Checked F Uncorrelated)
      (Follows net · (labels.set v target)) := by
  rw [update]
  split
  · rename_i hzero
    refine yields_ok ⟨h.total_eq, fun label => ?_⟩
    have hset := heldSum_set net.degree hv target label
    rw [hzero] at hset
    rw [h.amount_eq]
    simpa using hset.symm
  · refine (Tally.yields_lower_heldSum h.amount_eq hv target).bind fun sums hsums => ?_
    exact yields_pure ⟨h.total_eq, hsums⟩

end Uncorrelated

end Potts.NullModel

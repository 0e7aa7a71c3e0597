import Potts.Proofs.NullModel.ClosedForm
import Potts.Proofs.NullModel.Division

/-!
# What null models conserve

In exact arithmetic a null model gives away what there is. What a vertex expects in all labels
together is its degree, or the mean degree in the independent model. What all vertices together
expect in a label is the degree sum of the vertices that hold it, except for the independent model,
which knows of no degrees. `Conserves` says both of a model, and `afterMoves_conserves` that it is
so after any moves, and that no division by zero has led there.

The rows of the correlated model rest on the shares of a degree being all of it. For the columns the
shares are turned back into counted edge ends, which can be read in both directions, so that the
edge ends at all degrees that lead to degree `k'` are the ends at `k'`.
-/

namespace Potts

open Potts.Partition NullModel Correlated

variable {K : Type} [ExactScalar K] {net : Network K} {labels : List Nat}

/-! ## Degrees and classes -/

namespace Network

theorem degree_eq_zero (htotal : net.totalDegree = 0) {v : Nat} (hv : v < net.size) :
    net.degree v = 0 := by
  rw [← net.sum_degree, Finset.sum_eq_zero_iff] at htotal
  exact htotal v (Finset.mem_range.2 hv)

end Network

theorem Partition.heldSum_degree_eq_zero (hlabels : labels.length = net.size)
    (htotal : net.totalDegree = 0) (label : Nat) : heldSum net.degree labels label = 0 := by
  refine Finset.sum_eq_zero fun v hv => net.degree_eq_zero htotal ?_
  rw [← hlabels]
  exact Finset.mem_range.1 (Finset.mem_filter.1 hv).1

theorem NullModel.Correlated.sum_mul_heldSum_inClass (hlabels : labels.length = net.size)
    (label : Nat) :
    ∑ degree ∈ net.degreeSet, degree * heldSum (inClass net degree) labels label =
      heldSum net.degree labels label := by
  simp only [heldSum, Finset.mul_sum]
  rw [Finset.sum_comm]
  refine Finset.sum_congr rfl fun v hv => ?_
  have hmem : net.degree v ∈ net.degreeSet := by
    refine net.degree_mem_degreeSet ?_
    rw [← hlabels]
    exact Finset.mem_range.1 (Finset.mem_filter.1 hv).1
  simp only [inClass, mul_ite, mul_one, mul_zero, Finset.sum_ite_eq, hmem, if_true]

theorem NullModel.Correlated.sum_heldSum_inClass (hlabels : labels.length = net.size)
    {S : Finset Nat} (hS : labels.toFinset ⊆ S) (degree : Nat) :
    ∑ label ∈ S, heldSum (inClass net degree) labels label = net.classSize degree := by
  rw [sum_heldSum_of_subset _ hS, hlabels, net.classSize_eq_sum]

/-! ## Rows -/

namespace NullModel

/-- What a vertex of a degree expects in all labels together. -/
def rowTotal (kind : Kind) (net : Network K) (degree : Nat) : K :=
  match kind with
  | .independent => (net.totalDegree : K) / net.size
  | .uncorrelated | .correlated => degree

theorem sum_closedForm_labels (kind : Kind) (hlabels : labels.length = net.size) {v : Nat}
    (hv : v < net.size) {S : Finset Nat} (hS : labels.toFinset ⊆ S) :
    ∑ label ∈ S, closedForm kind net labels (net.degree v) label =
      rowTotal kind net (net.degree v) := by
  cases kind with
  | independent =>
    have hsize : (net.size : K) ≠ 0 := Nat.cast_ne_zero.2 (by omega)
    have hcount : ∑ label ∈ S, (labels.count label : K) = net.size := by
      have hsum := sum_heldSum_of_subset (fun _ => 1) hS
      simp only [heldSum_one, Finset.sum_const, Finset.card_range, smul_eq_mul, mul_one] at hsum
      rw [← Nat.cast_sum, hsum, hlabels]
    simp only [closedForm, rowTotal]
    rw [← Finset.mul_sum, hcount, ← div_div, div_mul_cancel₀ _ hsize]
  | uncorrelated =>
    have hdegrees : ∑ label ∈ S, (heldSum net.degree labels label : K) = net.totalDegree := by
      rw [← Nat.cast_sum, sum_heldSum_of_subset _ hS, hlabels, net.sum_degree]
    simp only [closedForm, rowTotal]
    rw [← Finset.sum_div, ← Finset.mul_sum, hdegrees]
    refine mul_div_cancel_of_imp fun htotal => ?_
    rw [net.degree_eq_zero (Nat.cast_eq_zero.1 htotal) hv, Nat.cast_zero]
  | correlated =>
    -- The labels share the vertices of each class.
    have hclass : ∀ degree' ∈ net.degreeSet,
        ∑ label ∈ S, (net.degree v : K) * net.share (net.degree v) degree' *
          (heldSum (inClass net degree') labels label : K) / (net.classSize degree' : K) =
        net.degree v * net.share (net.degree v) degree' := by
      intro degree' hdegree'
      have hne : (net.classSize degree' : K) ≠ 0 :=
        Nat.cast_ne_zero.2 (net.classSize_pos hdegree').ne'
      rw [← Finset.sum_div, ← Finset.mul_sum, ← Nat.cast_sum, sum_heldSum_inClass hlabels hS,
        mul_div_cancel_right₀ _ hne]
    simp only [closedForm, rowTotal]
    rw [Finset.sum_comm, Finset.sum_congr rfl hclass, ← Finset.mul_sum]
    rcases Nat.eq_zero_or_pos (net.degree v) with hzero | hpos
    · rw [hzero, Nat.cast_zero, zero_mul]
    · rw [net.sum_share (net.degree_mem_degreeSet hv) hpos, mul_one]

/-! ## Columns -/

/-- The edge ends at all degrees that lead to one degree are the ends at this degree. -/
theorem sum_mul_share {degree' : Nat} (hdegree' : degree' ∈ net.degreeSet) :
    ∑ degree ∈ net.degreeSet,
        (net.classSize degree : K) * ((degree : K) * net.share degree degree') =
      degree' * net.classSize degree' := by
  calc ∑ degree ∈ net.degreeSet,
        (net.classSize degree : K) * ((degree : K) * net.share degree degree')
      = ∑ degree ∈ net.degreeSet, (net.mixing degree degree' : K) := by
        refine Finset.sum_congr rfl fun degree _ => ?_
        rw [← net.mul_share hdegree', Nat.cast_mul]
        ring
    _ = ((∑ degree ∈ net.degreeSet, net.mixing degree' degree : Nat) : K) := by
        rw [Nat.cast_sum]
        simp only [net.mixing_comm]
    _ = degree' * net.classSize degree' := by
        rw [net.sum_mixing, Nat.cast_mul]

theorem sum_closedForm_vertices {kind : Kind} (hkind : kind ≠ .independent)
    (hlabels : labels.length = net.size) (label : Nat) :
    ∑ v ∈ Finset.range net.size, closedForm kind net labels (net.degree v) label =
      heldSum net.degree labels label := by
  cases kind with
  | independent => exact absurd rfl hkind
  | uncorrelated =>
    simp only [closedForm]
    rw [← Finset.sum_div, ← Finset.sum_mul, ← Nat.cast_sum, net.sum_degree, mul_comm]
    refine mul_div_cancel_of_imp fun htotal => ?_
    rw [heldSum_degree_eq_zero hlabels (Nat.cast_eq_zero.1 htotal), Nat.cast_zero]
  | correlated =>
    rw [net.sum_degree_comp fun degree => closedForm .correlated net labels degree label]
    simp only [closedForm, nsmul_eq_mul, Finset.mul_sum]
    rw [Finset.sum_comm, ← sum_mul_heldSum_inClass hlabels, Nat.cast_sum]
    refine Finset.sum_congr rfl fun degree' hdegree' => ?_
    have hne : (net.classSize degree' : K) ≠ 0 :=
      Nat.cast_ne_zero.2 (net.classSize_pos hdegree').ne'
    calc ∑ degree ∈ net.degreeSet, (net.classSize degree : K) *
          ((degree : K) * net.share degree degree' *
            (heldSum (inClass net degree') labels label : K) / (net.classSize degree' : K))
        = (∑ degree ∈ net.degreeSet,
            (net.classSize degree : K) * ((degree : K) * net.share degree degree')) *
            ((heldSum (inClass net degree') labels label : K) / net.classSize degree') := by
          rw [Finset.sum_mul]
          refine Finset.sum_congr rfl fun degree _ => ?_
          ring
      _ = (degree' * heldSum (inClass net degree') labels label : Nat) := by
          rw [sum_mul_share hdegree', Nat.cast_mul]
          field_simp

/-! ## Models -/

/-- A model conserves degrees: it gives every vertex what there is for it, and every label the
degrees of its vertices. -/
structure Conserves (kind : Kind) (net : Network K) (m : NullModel K) (labels : List Nat) :
    Prop where
  row : ∀ v < net.size, ∀ S : Finset Nat, labels.toFinset ⊆ S →
    ∑ label ∈ S, m.expected (net.degree v) label = rowTotal kind net (net.degree v)
  column : kind ≠ .independent → ∀ label,
    ∑ v ∈ Finset.range net.size, m.expected (net.degree v) label =
      heldSum net.degree labels label

/-- After any moves a null model conserves degrees, and it has come about without a division by
zero: the classes of vertices that it divides by are never empty, and it is the same model whatever
the quotients by zero are. -/
theorem afterMoves_conserves (kind : Kind) (net : Network K) (hlabels : labels.length = net.size)
    {moves : List (Nat × Nat)} (hmoves : ∀ move ∈ moves, move.1 < net.size) :
    ∃ m, afterMoves kind net labels moves = .ok m ∧
      Conserves kind net m (movedLabels labels moves) ∧
      (∀ c : Correlated K, m = .correlated c → ∀ size ∈ c.classSize, size ≠ 0) ∧
      ∀ atZero : K → K,
        @afterMoves K (Scalar.dividing atZero) kind (net.dividing atZero) labels moves = .ok m := by
  obtain ⟨m, hm, hclosed⟩ := exists_closedForm kind net hlabels hmoves
  have hlength : (movedLabels labels moves).length = net.size := by
    rw [length_movedLabels, hlabels]
  refine ⟨m, hm, ⟨fun v hv S hS => ?_, fun hkind label => ?_⟩, ?_, fun atZero => ?_⟩
  · rw [Finset.sum_congr rfl fun label _ => hclosed v hv label]
    exact sum_closedForm_labels kind hlength hv hS
  · rw [Finset.sum_congr rfl fun v hv => hclosed v (Finset.mem_range.1 hv) label]
    exact sum_closedForm_vertices hkind hlength label
  · rintro c rfl size hsize
    have hfollows : Correlated.Follows net c _ :=
      (((persists_follows kind net).yields_afterMoves hlabels hmoves).of_eq_ok hm).2
    exact hfollows.counts.size_ne_zero hlength hsize
  · rw [afterMoves_dividing atZero kind hlabels hmoves, hm]

theorem afterMoves_conserves_path :
    [0, 1, 0].length = Network.path.size ∧ (∀ move ∈ [(1, 0)], move.1 < Network.path.size) ∧
      ∃ m, afterMoves .correlated Network.path [0, 1, 0] [(1, 0)] = .ok m ∧
        ∑ v ∈ Finset.range 3, m.expected (Network.path.degree v) 0 = 4 := by
  have hlabels : [0, 1, 0].length = Network.path.size := rfl
  have hmoves : ∀ move ∈ [(1, 0)], move.1 < Network.path.size := by
    change ∀ move ∈ [(1, 0)], move.1 < 3
    decide
  obtain ⟨m, hm, hconserves, -⟩ :=
    afterMoves_conserves .correlated Network.path hlabels hmoves
  refine ⟨hlabels, hmoves, m, hm, ?_⟩
  have hheld : heldSum Network.path.degree (movedLabels [0, 1, 0] [(1, 0)]) 0 = 4 := by decide
  have hcolumn := hconserves.column (by decide) 0
  rw [hheld] at hcolumn
  exact_mod_cast hcolumn

end NullModel

end Potts

import Potts.Proofs.NullModel.Rebuild
import Potts.Proofs.NullModel.Shares

/-!
# Null models in closed form

In exact arithmetic every kind of null model expects what its definition says, with the labels that
the vertices hold after all of the moves (`exists_closedForm`). What one wants to know of the
expectations of a model can so be proved of a formula that knows of no table and no update.
-/

namespace Potts.NullModel

open Checked Potts.Partition

variable {K : Type} [ExactScalar K] {net : Network K} {m : NullModel K} {labels : List Nat}

/-- What a vertex of a degree expects in a label by the definition of the null model. -/
def closedForm (kind : Kind) (net : Network K) (labels : List Nat) (degree label : Nat) : K :=
  match kind with
  | .independent => (net.totalDegree : K) / (net.size * net.size) * (labels.count label : K)
  | .uncorrelated => (degree : K) * (heldSum net.degree labels label : K) / (net.totalDegree : K)
  | .correlated => ∑ degree' ∈ net.degreeSet, (degree : K) * net.share degree degree' *
      (heldSum (Correlated.inClass net degree') labels label : K) / (net.classSize degree' : K)

theorem Independent.Follows.expected_eq_closedForm {m : Independent K}
    (h : Independent.Follows net m labels) (degree label : Nat) :
    m.expected label = closedForm .independent net labels degree label := by
  rw [h.expected_eq, closedForm]
  congr 1
  refine ite_eq_left_iff.2 fun hsize => ?_
  rw [Scalar.zero_eq, Nat.cast_pos, Nat.pos_iff_ne_zero, not_not] at hsize
  rw [Scalar.zero_eq, hsize, Nat.cast_zero, mul_zero, div_zero]

theorem Uncorrelated.Follows.expected_eq_closedForm {m : Uncorrelated}
    (h : Uncorrelated.Follows net m labels) (degree label : Nat) :
    (m.expected degree label : K) = closedForm .uncorrelated net labels degree label := by
  rw [h.expected_eq, closedForm, Nat.cast_mul]
  refine ite_eq_right_iff.2 fun htotal => ?_
  rw [Scalar.zero_eq, htotal, Nat.cast_zero, div_zero]

theorem Follows.expected_eq_closedForm (h : Follows net m labels) (hsummed : Summed m) {v : Nat}
    (hv : v < net.size) (label : Nat) :
    m.expected (net.degree v) label = closedForm m.kind net labels (net.degree v) label := by
  cases m with
  | independent m => exact Independent.Follows.expected_eq_closedForm h _ label
  | uncorrelated m => exact Uncorrelated.Follows.expected_eq_closedForm h _ label
  | correlated m => exact Correlated.Follows.expected_eq h hsummed hv label

theorem exists_closedForm (kind : Kind) (net : Network K) (hlabels : labels.length = net.size)
    {moves : List (Nat × Nat)} (hmoves : ∀ move ∈ moves, move.1 < net.size) :
    ∃ m, afterMoves kind net labels moves = .ok m ∧ ∀ v < net.size, ∀ label,
      m.expected (net.degree v) label =
        closedForm kind net (movedLabels labels moves) (net.degree v) label := by
  obtain ⟨m, hm, hkind, hfollows, hsummed⟩ :=
    (persists_summed kind net).yields_afterMoves hlabels hmoves
  refine ⟨m, hm, fun v hv label => ?_⟩
  rw [hfollows.expected_eq_closedForm hsummed hv, hkind]

end Potts.NullModel

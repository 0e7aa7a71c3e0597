import Potts.NullModel.Correlated
import Potts.NullModel.Independent
import Potts.NullModel.Kind
import Potts.NullModel.Uncorrelated

/-!
# Null models

The null model that stands behind the energy of a vertex: what weight a vertex of a degree is
expected to have into a label. It follows the labels: when a vertex moves, the model is updated, and
it answers as the model built anew from the labels would.
-/

namespace Potts

inductive NullModel (F : Type) where
  | independent (m : NullModel.Independent F)
  | uncorrelated (m : NullModel.Uncorrelated)
  | correlated (m : NullModel.Correlated F)

namespace NullModel

variable {F : Type} [Scalar F]

/-- The null model of a network whose vertices hold these labels. -/
def ofLabels (kind : Kind) (net : Network F) (labels : List Nat) : Checked F (NullModel F) :=
  match kind with
  | .independent => .ok (.independent (.ofLabels net labels))
  | .uncorrelated => .uncorrelated <$> Uncorrelated.ofLabels net labels
  | .correlated => .correlated <$> Correlated.ofLabels net labels

def kind : NullModel F → Kind
  | .independent _ => .independent
  | .uncorrelated _ => .uncorrelated
  | .correlated _ => .correlated

/-- The weight that a vertex of this degree is expected to have into `label`. -/
def expected (m : NullModel F) (degree label : Nat) : F :=
  match m with
  | .independent m => m.expected label
  | .uncorrelated m => m.expected degree label
  | .correlated m => m.expected degree label

/-- A vertex of this degree moves from one label to another. -/
def update (m : NullModel F) (degree source target : Nat) : Checked F (NullModel F) :=
  match m with
  | .independent m => .independent <$> m.update source target
  | .uncorrelated m => .uncorrelated <$> m.update degree source target
  | .correlated m => .correlated <$> m.update degree source target

end NullModel

end Potts

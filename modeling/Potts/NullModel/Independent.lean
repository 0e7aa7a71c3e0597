import Potts.Graph.Network
import Potts.Partition.Population

/-!
# The independent null model

Edges are placed with the same density between all vertices, so a vertex expects in a label what the
label's share of the vertices lets it expect.
-/

namespace Potts.NullModel

structure Independent (F : Type) where
  /-- The mean degree over the number of vertices. -/
  density : F
  population : Population

namespace Independent

variable {F : Type} [Scalar F]

def ofLabels (net : Network F) (labels : List Nat) : Independent F where
  density :=
    let size : F := net.size
    if Scalar.zero < size then (net.totalDegree : F) / (size * size) else Scalar.zero
  population := .ofLabels labels

/-- The weight that a vertex expects to have into `label`. -/
def expected (m : Independent F) (label : Nat) : F :=
  m.density * (m.population.count label : F)

def update (m : Independent F) (source target : Nat) : Checked F (Independent F) := do
  return { m with population := ← m.population.transfer source target }

end Independent

end Potts.NullModel

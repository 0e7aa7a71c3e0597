import Potts.Graph.Network
import Potts.Partition.Tally

/-!
# The uncorrelated null model

Every vertex keeps its degree and the ends of the edges are joined at random, so a vertex of degree
`k` expects `k K / 2m` in a label whose vertices have degree sum `K`.
-/

namespace Potts.NullModel

structure Uncorrelated where
  total : Nat
  /-- The sum of the degrees in each label; a label without edges has no entry. -/
  sums : Tally

namespace Uncorrelated

variable {F : Type} [Scalar F]

/-- The sums with one more vertex, given with its label. -/
def addVertex (net : Network F) (sums : Tally) (held : Nat × Nat) :
    Checked F Tally := do
  let degree ← net.degreeAt held.2
  return if 0 < degree then sums.raise held.1 degree else sums

def ofLabels (net : Network F) (labels : List Nat) : Checked F Uncorrelated := do
  let sums ← labels.zipIdx.foldlM (addVertex net) .empty
  return ⟨net.totalDegree, sums⟩

/-- The weight that a vertex of this degree expects to have into `label`. -/
def expected (m : Uncorrelated) (degree label : Nat) : F :=
  if m.total = 0 then Scalar.zero
  else ((degree * m.sums.amount label : Nat) : F) / (m.total : F)

def update (m : Uncorrelated) (degree source target : Nat) : Checked F Uncorrelated :=
  if degree = 0 then .ok m
  else do
    let sums ← m.sums.lower source degree
    return { m with sums := sums.raise target degree }

end Uncorrelated

end Potts.NullModel

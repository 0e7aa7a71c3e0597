import Potts.Annealing.Detector
import Potts.Boltzmann.Table
import Potts.Energy.Index
import Potts.NullModel.Basic
import Potts.Partition.Population

/-!
# Annealing states

What an annealing run works on. The setting stays as it is for the whole run: the network, the
degree classes of its vertices and the numbers that the energies depend on. The state changes: the
labels of the vertices and the three records that follow them, namely the population, the null model
and the energy index, and the random source.
-/

namespace Potts.Annealing

variable {F : Type} [Scalar F]

/-- What stays the same in a run. -/
structure Setting (F : Type) [Scalar F] where
  network : Network F
  resolution : F
  labels : Nat
  shift : F
  /-- The degree class of every vertex. -/
  classOf : Array Nat
  /-- The largest strength in every degree class. -/
  strengths : Array F

/-- What changes in a run. -/
structure State (F R : Type) [Scalar F] where
  labels : Array Nat
  population : Population
  nullModel : NullModel F
  /-- Where each degree class files each label. -/
  index : EnergyIndex F
  source : R

/-- What the null model adds to the energy of a vertex of this degree in `label`. -/
def globalEnergy (resolution : F) (m : NullModel F) (degree label : Nat) : F :=
  resolution * m.expected degree label

/-- A random number below `n`, which must not be zero. -/
def drawBelow {R : Type} [RandomSource R] (r : R) (n : Nat) : Checked F (Nat × R) :=
  if n = 0 then .error .emptyRange else .ok (RandomSource.below r n)

/-! ## The start of a run -/

/-- Random labels below `n` for a number of vertices, drawn in the order of the vertices. -/
def drawLabels {R : Type} [RandomSource R] (n : Nat) :
    (vertices : Nat) → R → Checked F (List Nat × R)
  | 0, r => .ok ([], r)
  | vertices + 1, r => do
    let (label, r) ← drawBelow r n
    let (rest, r) ← drawLabels n vertices r
    return (label :: rest, r)

def vertexClasses (net : Network F) (index : EnergyIndex F) : Checked F (List Nat) :=
  net.degrees.mapM fun degree => Checked.expect (.unclassified degree) (index.class? degree)

/-- The largest strength in every one of `classes` degree classes. -/
def classStrengths (net : Network F) (classes : Nat) (classOf : List Nat) : Checked F (Array F) :=
  classOf.zipIdx.foldlM
    (fun strengths held => do
      let strength ← net.strengthAt held.2
      Checked.modify strengths held.1 (Scalar.larger · strength))
    (Array.replicate classes Scalar.zero)

/-- The setting and the first state of a run: random labels, and the records built on them. -/
def start {R : Type} [SeededSource R] (d : Detector F) (net : Network F) :
    Checked F (Setting F × State F R) := do
  let count := d.labelCount net.size
  let (labels, source) ← drawLabels count net.size (SeededSource.ofSeed d.seed : R)
  let nullModel ← NullModel.ofLabels d.nullModel net labels
  let index := EnergyIndex.build net.degreeClasses count (globalEnergy d.resolution nullModel)
  let classOf ← vertexClasses net index
  let strengths ← classStrengths net index.classCount classOf
  let setting : Setting F := {
    network := net
    resolution := d.resolution
    labels := count
    shift := boltzmannShift count
    classOf := classOf.toArray
    strengths := strengths }
  return (setting, ⟨labels.toArray, .ofLabels labels, nullModel, index, source⟩)

end Potts.Annealing

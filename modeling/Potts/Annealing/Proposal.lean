import Potts.Annealing.State

/-!
# Proposals

How one vertex chooses a label. The energy of a label for a vertex is what the null model adds to
it, less the weight of the vertex's edges into the label. The energy index holds the first part for
all labels; the second part concerns the neighbors' labels only. So these are displaced in the
spectrum of the vertex's class, the class's Boltzmann table is patched, an energy and then a label
at that energy are drawn, and everything is put back.

The least energy is taken instead of a draw once the table has no weight left, when nothing of the
vertex's own labels reaches the table, and when a draw fails; from then on the class keeps to it for
the rest of the sweep.
-/

namespace Potts.Annealing

variable {F : Type} [Scalar F]

/-- A label that the edges of a vertex move to another energy. -/
structure Displacement (F : Type) where
  label : Nat
  /-- The energy at which the index files the label. -/
  base : F
  /-- The energy that the label has for the vertex. -/
  displaced : F
  deriving Repr

/-- What a vertex has chosen. -/
structure Proposal (F : Type) where
  label : Nat
  energy : F
  /-- The least energy that a label has for the vertex. -/
  least : F
  /-- Whether the least energy was taken instead of a draw. -/
  steepest : Bool
  deriving Repr

def addNeighbor (labels : Array Nat) (weights : SortedMap Nat F compare) (neighbor : Nat × F) :
    Checked F (SortedMap Nat F compare) := do
  let label ← Checked.fetch labels neighbor.1
  return weights.alter label fun weight => some (weight.getD Scalar.zero + neighbor.2)

/-- The weight of the edges of a vertex into each label that a neighbor holds. -/
def localWeights (net : Network F) (labels : Array Nat) (v : Nat) :
    Checked F (SortedMap Nat F compare) := do
  let neighbors ← net.neighborsAt v
  neighbors.foldlM (addNeighbor labels) .empty

/-- The displacements of the labels that the neighbors of a vertex hold, by ascending label. -/
def displacements (setting : Setting F) (m : NullModel F) (degree : Nat)
    (weights : SortedMap Nat F compare) : List (Displacement F) :=
  weights.entries.map fun entry =>
    let base := globalEnergy setting.resolution m degree entry.1
    ⟨entry.1, base, base - entry.2⟩

def displace (s : Spectrum F) (ds : List (Displacement F)) : Checked F (Spectrum F) :=
  ds.foldlM (fun s d => s.relocate d.label d.base d.displaced) s

/-- The spectrum with the displaced labels back at the energies at which they are filed. -/
def putBack (s : Spectrum F) (ds : List (Displacement F)) : Checked F (Spectrum F) :=
  ds.foldlM (fun s d => s.relocate d.label d.displaced d.base) s

/-- The energies of a list, each at its first place only. -/
def dedupe (energies : List F) : List F :=
  energies.foldl (fun kept e => if kept.any (Scalar.sameKey e) then kept else kept ++ [e]) []

def touched (ds : List (Displacement F)) : List F :=
  dedupe (ds.flatMap fun d => [d.base, d.displaced])

/-- The spectrum and the table of a degree class as one of its vertices sees them. -/
structure Patch (F : Type) [Scalar F] where
  classNumber : Nat
  displacements : List (Displacement F)
  /-- The spectrum of the class with these labels displaced. -/
  spectrum : Spectrum F
  table : BoltzmannTable F
  /-- How many entries the patch appended to the table. -/
  appended : Nat

/-- Displace what the edges of a vertex concern, and patch the table of its class. -/
def patch {R : Type} (setting : Setting F) (state : State F R) (v : Nat)
    (table : BoltzmannTable F) : Checked F (Patch F) := do
  let degree ← setting.network.degreeAt v
  let c ← Checked.fetch setting.classOf v
  let weights ← localWeights setting.network state.labels v
  let ds := displacements setting state.nullModel degree weights
  let spectrum ← state.index.spectrum c
  let spectrum ← displace spectrum ds
  let (table, appended) ← table.perturb spectrum (touched ds)
  return ⟨c, ds, spectrum, table, appended⟩

/-- Whether the least energy is taken without a draw: the class has switched to it, or there are
labels of the vertex's own but none of their levels reaches the table. -/
def Patch.isGreedy (p : Patch F) : Bool :=
  p.table.steepest || (p.appended == 0 && !(touched p.displacements).isEmpty)

/-- Choose an energy: the least one, or one that is drawn from the table. The answer has the table,
which has switched to the least energy if that was taken, and the source. -/
def chooseEnergy {R : Type} [RandomSource R] (p : Patch F) (least : F) (r : R) :
    Checked F (F × BoltzmannTable F × R) :=
  if p.isGreedy then .ok (least, p.table.enterSteepest, r)
  else do
    let (drawn, r) ← p.table.draw r
    match drawn with
    | some energy => return (energy, p.table, r)
    | none => return (least, p.table.enterSteepest, r)

def chooseLabel {R : Type} [RandomSource R] (level : LabelSet) (r : R) : Checked F (Nat × R) := do
  let (place, r) ← drawBelow r level.size
  let label ← Checked.expect .outOfRange (SortedSet.toList level)[place]?
  return (label, r)

/-- Let a vertex choose a label by the table of its class. The labels of the vertices, the
population and the null model stay as they are; the index and the table are put back. -/
def propose {R : Type} [RandomSource R] (setting : Setting F) (state : State F R) (v : Nat)
    (table : BoltzmannTable F) : Checked F (Proposal F × State F R × BoltzmannTable F) := do
  let p ← patch setting state v table
  let (least, _) ← Checked.expect .missingLevel p.spectrum.minimum?
  let (energy, table, source) ← chooseEnergy p least state.source
  let level ← Checked.expect .missingLevel (p.spectrum.level? energy)
  let (label, source) ← chooseLabel level source
  let table ← table.restore
  let spectrum ← putBack p.spectrum p.displacements
  let index := state.index.setSpectrum p.classNumber spectrum
  return (⟨label, energy, least, table.steepest⟩, { state with index := index, source := source },
    table)

end Potts.Annealing

import Potts.Annealing.Proposal

/-!
# Sweeps

One sweep over the network. Every vertex, in its order, chooses a label against the state at the
start of the sweep; then all moves are made together. The tables of the degree classes are built
once, before the first vertex chooses.
-/

namespace Potts.Annealing

variable {F R : Type} [Scalar F]

/-! ## Moving vertices -/

/-- Take two labels out of the spectra of all degree classes, where the null model says they are. -/
def withdraw (resolution : F) (m : NullModel F) (source target : Nat) (index : EnergyIndex F) :
    Checked F (EnergyIndex F) :=
  (List.range index.classCount).foldlM
    (fun index c => do
      let degree ← Checked.fetch index.degrees c
      index.modifyM c fun s => do
        let s ← s.remove (globalEnergy resolution m degree source) source
        s.remove (globalEnergy resolution m degree target) target)
    index

/-- File two labels in the spectra of all degree classes, where the null model says they belong. -/
def enroll (resolution : F) (m : NullModel F) (source target : Nat) (index : EnergyIndex F) :
    Checked F (EnergyIndex F) :=
  (List.range index.classCount).foldlM
    (fun index c => do
      let degree ← Checked.fetch index.degrees c
      index.modifyM c fun s => .ok
        ((s.insert (globalEnergy resolution m degree source) source).insert
          (globalEnergy resolution m degree target) target))
    index

/-- Move a vertex to a label: both labels leave the index, the population and the null model follow
the vertex, and the labels are filed again. -/
def moveVertex (setting : Setting F) (state : State F R) (move : Nat × Nat) :
    Checked F (State F R) := do
  let (v, target) := move
  let source ← Checked.fetch state.labels v
  if source = target then return state
  let index ← withdraw setting.resolution state.nullModel source target state.index
  let population ← state.population.transfer source target
  let degree ← setting.network.degreeAt v
  let nullModel ← state.nullModel.update degree source target
  let index ← enroll setting.resolution nullModel source target index
  return { state with
    labels := state.labels.setIfInBounds v target
    population := population
    nullModel := nullModel
    index := index }

def makeMoves (setting : Setting F) (state : State F R) (moves : List (Nat × Nat)) :
    Checked F (State F R) :=
  moves.foldlM (moveVertex setting) state

/-! ## A sweep -/

def buildTables (setting : Setting F) (index : EnergyIndex F) (temperature : F) :
    List (BoltzmannTable F) :=
  let classes := index.spectra.toList.zip (index.degrees.toList.zip setting.strengths.toList)
  classes.map fun c => .build c.1 c.2.1 c.2.2 temperature setting.shift

structure Choices (F R : Type) [Scalar F] where
  tables : Array (BoltzmannTable F)
  /-- The state, in which no vertex has moved. -/
  state : State F R
  /-- What the vertices have chosen, the last one first. -/
  proposals : List (Nat × Proposal F)

def chooseNext [RandomSource R] (setting : Setting F) (choices : Choices F R) (v : Nat) :
    Checked F (Choices F R) := do
  let c ← Checked.fetch setting.classOf v
  let table ← Checked.fetch choices.tables c
  let (proposal, state, table) ← propose setting choices.state v table
  return ⟨choices.tables.setIfInBounds c table, state, (v, proposal) :: choices.proposals⟩

def choose [RandomSource R] (setting : Setting F) (state : State F R)
    (tables : List (BoltzmannTable F)) : Checked F (Choices F R) :=
  (List.range setting.network.size).foldlM (chooseNext setting) ⟨tables.toArray, state, []⟩

/-- The moves of the vertices that chose another label than their own, in the vertices' order. -/
def staged (labels : Array Nat) (proposals : List (Nat × Proposal F)) :
    Checked F (List (Nat × Nat)) :=
  proposals.reverse.filterMapM fun choice => do
    let held ← Checked.fetch labels choice.1
    return if held = choice.2.label then none else some (choice.1, choice.2.label)

/-- What a sweep did. -/
structure SweepOutcome (F : Type) where
  proposals : List (Nat × Proposal F)
  moved : Nat
  /-- Whether a degree class took the least energy instead of a draw. -/
  steepest : Bool
  /-- The degrees of the classes whose weights had vanished before the sweep. -/
  vanished : List Nat

def sweep [RandomSource R] (setting : Setting F) (state : State F R) (temperature : F) :
    Checked F (SweepOutcome F × State F R) := do
  let tables := buildTables setting state.index temperature
  let vanished := (tables.zip state.index.degrees.toList).filterMap fun c =>
    if c.1.steepest then some c.2 else none
  let choices ← choose setting state tables
  let moves ← staged choices.state.labels choices.proposals
  let state ← makeMoves setting choices.state moves
  let steepest := choices.tables.any BoltzmannTable.steepest
  return (⟨choices.proposals.reverse, moves.length, steepest, vanished⟩, state)

end Potts.Annealing

import Potts.Annealing.Report
import Potts.Annealing.Sweep
import Potts.Partition.Canonical

/-!
# Annealing runs

A run checks the settings, starts from random labels and makes its sweeps at falling temperature. It
answers with the last labels and with what is to be told about every sweep.
-/

namespace Potts

namespace Annealing

variable {F R : Type} [Scalar F]

structure SweepRecord (F : Type) where
  report : SweepReport F
  /-- The degrees of the classes whose weights had vanished before the sweep. -/
  vanished : List Nat
  deriving Repr

def SweepRecord.of (d : Detector F) (t : Nat) (outcome : SweepOutcome F) (after : State F R) :
    SweepRecord F where
  report := {
    sweep := t
    total := d.sweeps
    percent := SweepReport.percentDone t d.sweeps
    temperature := d.cooling.temperature t
    occupied := after.population.occupied
    levels := after.index.levelCount
    moved := outcome.moved
    steepest := outcome.steepest }
  vanished := outcome.vanished

/-- Make `count` sweeps from sweep number `t` on. -/
def sweepsFrom [RandomSource R] (d : Detector F) (setting : Setting F) :
    (count t : Nat) → State F R → Checked F (List (SweepRecord F) × State F R)
  | 0, _, state => .ok ([], state)
  | count + 1, t, state => do
    let (outcome, state) ← sweep setting state (d.cooling.temperature t)
    let (records, last) ← sweepsFrom d setting count (t + 1) state
    return (.of d t outcome state :: records, last)

structure Run (F : Type) where
  vertices : Nat
  edges : Nat
  labelCount : Nat
  records : List (SweepRecord F)
  occupied : Nat
  labels : List Nat
  deriving Repr

def anneal (R : Type) [SeededSource R] (d : Detector F) (net : Network F) : Checked F (Run F) := do
  let (setting, first) ← start (R := R) d net
  let (records, last) ← sweepsFrom d setting d.sweeps 0 first
  return {
    vertices := net.size
    edges := net.edgeCount
    labelCount := setting.labels
    records := records
    occupied := last.population.occupied
    labels := last.labels.toList }

end Annealing

namespace Detector

open Annealing

variable {F : Type} [Scalar F]

def runNetwork (R : Type) [SeededSource R] (d : Detector F) (net : Network F) :
    Except (Failure F) (Run F) := do
  Failure.ofError d.validate
  if net.size = 0 then throw (.error .emptyInput)
  Failure.ofFault (anneal R d net)

/-- Detect communities in a graph, without weights or with one for each edge. The settings are
checked before the graph is. -/
def run (R : Type) [SeededSource R] (d : Detector F) (g : Multigraph)
    (weights : Option (List F)) : Except (Failure F) (Run F) := do
  Failure.ofError d.validate
  let net ← Failure.ofError (Network.ofGraph g weights)
  d.runNetwork R net

/-- The communities of a graph without weights, by canonical labels. -/
def detect (R : Type) [SeededSource R] (d : Detector F) (g : Multigraph) :
    Except (Failure F) (List Nat) := do
  let result ← d.run R g none
  return Partition.canonical result.labels

end Detector

end Potts

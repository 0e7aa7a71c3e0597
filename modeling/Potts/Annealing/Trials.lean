import Potts.Annealing.Run
import Potts.Partition.Modularity

/-!
# Trials

Annealing depends on its random stream, so a better partition is found by several trials. Trial
number `t` runs with the detector's seed plus `t`; the winner is the first trial with the highest
modularity.
-/

namespace Potts

structure Trial (F : Type) where
  number : Nat
  seed : UInt64
  run : Annealing.Run F
  /-- The modularity of the labels that the run ended with. -/
  modularity : F
  deriving Repr

/-- The trials of a contest and their winner. -/
structure Contest (F : Type) where
  trials : List (Trial F)
  winner : Trial F
  deriving Repr

namespace Trial

variable {F : Type} [Scalar F]

/-- The seed of a trial; seeds go round at the end of their range. -/
def seedOf (seed : UInt64) (number : Nat) : UInt64 := seed + UInt64.ofNat number

def make (R : Type) [SeededSource R] (d : Detector F) (net : Network F) (number : Nat) :
    Except (Failure F) (Trial F) := do
  let seed := seedOf d.seed number
  let run ← Detector.runNetwork R { d with seed := seed } net
  let score ← Failure.ofError (Partition.modularity net run.labels)
  return ⟨number, seed, run, score⟩

/-- The leader after one more trial: a trial whose score is at most the leader's does not lead. -/
def leader (best : Option (Trial F)) (trial : Trial F) : Option (Trial F) :=
  match best with
  | some b => if trial.modularity ≤ b.modularity then some b else some trial
  | none => some trial

def winner? (trials : List (Trial F)) : Option (Trial F) := trials.foldl leader none

end Trial

namespace Detector

variable {F : Type} [Scalar F]

/-- Make a number of trials on a graph, without weights or with one for each edge. -/
def bestOfTrials (R : Type) [SeededSource R] (d : Detector F) (g : Multigraph)
    (weights : Option (List F)) (count : Nat) : Except (Failure F) (Contest F) := do
  if count = 0 then throw (.error (.invalidParameter .trials))
  Failure.ofError d.validate
  let net ← Failure.ofError (Network.ofGraph g weights)
  if net.size = 0 then throw (.error .emptyInput)
  let trials ← (List.range count).mapM (Trial.make R d net)
  match Trial.winner? trials with
  | some winner => return ⟨trials, winner⟩
  | none => throw (.error .emptyInput)

end Detector

end Potts

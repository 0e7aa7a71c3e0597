import Potts.Annealing.Trials
import Potts.Graph.Attributed
import Potts.Journal.Event

/-!
# Accounts of the work

The events of a run, of a contest of trials and of a detection on a graph with property maps, in the
order in which they happen. Work that is refused has no events.
-/

namespace Potts.Journal

variable {F : Type}

/-- The events of one sweep. -/
def ofSweep (verbose : Bool) (record : Annealing.SweepRecord F) : List (Event F) :=
  record.vanished.map (.vanished · record.report.temperature) ++ [.swept verbose record.report]

def ofRun (d : Detector F) (run : Annealing.Run F) : List (Event F) :=
  .started run.vertices run.edges run.labelCount d.nullModel d.sweeps ::
    run.records.flatMap (ofSweep d.verbose) ++ [.finished run.occupied]

def ofContest (d : Detector F) (contest : Contest F) : List (Event F) :=
  contest.trials.flatMap fun trial =>
    ofRun d trial.run ++ [.scored trial.number trial.seed trial.modularity]

/-- The events of a detection whose labels are written under a name. -/
def ofDetection (d : Detector F) (name : String) (detection : Detection F) : List (Event F) :=
  ofRun d detection.run ++ if detection.replaced then [.replaced name] else []

end Potts.Journal

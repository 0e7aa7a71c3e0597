import Potts.Annealing.Report
import Potts.NullModel.Kind

/-!
# Journal events

What is told of the work while it is done. Every event has a level of importance and one line of
text.
-/

namespace Potts.Journal

inductive Level where
  | information
  | debugging
  | tracing
  deriving DecidableEq, Repr

def Level.name : Level → String
  | .information => "INFO"
  | .debugging => "DEBUG"
  | .tracing => "TRACE"

/-- Something that is told. -/
inductive Event (F : Type) where
  | started (vertices edges labels : Nat) (nullModel : NullModel.Kind) (sweeps : Nat)
  /-- The weights of a degree class have vanished before a sweep. -/
  | vanished (degree : Nat) (temperature : F)
  /-- A sweep is done; a verbose run tells it as information. -/
  | swept (verbose : Bool) (report : SweepReport F)
  | finished (occupied : Nat)
  | scored (trial : Nat) (seed : UInt64) (modularity : F)
  | replaced (name : String)
  deriving Repr

namespace Event

variable {F : Type}

def level : Event F → Level
  | .swept verbose _ => if verbose then .information else .tracing
  | _ => .debugging

/-- The text of an event. A verbose run lines its sweep numbers up with the number of sweeps. -/
def text : Event Float → String
  | .started vertices edges labels nullModel sweeps =>
    s!"spin glass: {vertices} vertices, {edges} edges, {labels} spins, " ++
      s!"{nullModel.name} null model, {sweeps} sweeps"
  | .vanished degree temperature =>
    s!"degree {degree}: Boltzmann weights underflow at T = {Decimal.scientific temperature}, " ++
      "steepest descent"
  | .swept verbose report => report.text (if verbose then Decimal.width report.total else 0)
  | .finished occupied => s!"spin glass: finished with {occupied} occupied labels"
  | .scored trial seed modularity =>
    s!"trial {trial} (seed {seed.toNat}): modularity {Decimal.fixed 6 modularity}"
  | .replaced name => s!"replaced property map '{name}'"

def line (e : Event Float) : String := s!"{e.level.name} {e.text}"

end Event

end Potts.Journal

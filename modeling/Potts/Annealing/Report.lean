import Potts.Decimal.Text

/-!
# Sweep reports

What an annealing run tells its observer after every sweep, and how a report is written.
-/

namespace Potts

/-- The state of a run after one sweep. -/
structure SweepReport (F : Type) where
  sweep : Nat
  total : Nat
  percent : Nat
  temperature : F
  occupied : Nat
  /-- The number of energy levels, summed over the degree classes. -/
  levels : Nat
  moved : Nat
  steepest : Bool
  deriving Repr

/-- The share of the sweeps that is done after sweep number `sweep`, in whole percent. -/
def SweepReport.percentDone (sweep total : Nat) : Nat := (sweep + 1) * 100 / total

/-- A report in words, its sweep number moved to the right edge of a column. -/
def SweepReport.text (r : SweepReport Float) (columns : Nat) : String :=
  let sweep := Decimal.padLeft columns (toString r.sweep)
  let percent := Decimal.padLeft 2 (toString r.percent)
  let temperature := Decimal.padLeft 14 (Decimal.fixed 10 r.temperature)
  let mode := if r.steepest then " (steepest descent)" else ""
  s!"{sweep} of {r.total} ({percent}%) temperature: {temperature} spins: {r.occupied} " ++
    s!"energy levels: {r.levels}" ++ mode

end Potts

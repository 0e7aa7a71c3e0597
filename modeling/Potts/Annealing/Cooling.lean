import Potts.Scalar.Basic

/-!
# Cooling

The temperature falls by the same factor from sweep to sweep, from the hottest at the first sweep to
the coldest at the last one. A coldest temperature below the spacing of the numbers at one is raised
to it, so that it has a logarithm.
-/

namespace Potts

/-- Geometric cooling. -/
structure Cooling (F : Type) where
  hottest : F
  /-- How much the logarithm of the temperature falls in one sweep. -/
  rate : F
  deriving Repr

namespace Cooling

variable {F : Type} [Scalar F]

/-- The cooling that goes from `hottest` to `coldest` in a number of sweeps. -/
def between (coldest hottest : F) (sweeps : Nat) : Cooling F where
  hottest := hottest
  rate :=
    if 1 < sweeps then
      (Scalar.ln hottest - Scalar.ln (Scalar.larger coldest Scalar.epsilon)) /
        ((sweeps - 1 : Nat) : F)
    else Scalar.zero

def temperature (c : Cooling F) (sweep : Nat) : F :=
  c.hottest * Scalar.exp (-c.rate * (sweep : F))

end Cooling

end Potts

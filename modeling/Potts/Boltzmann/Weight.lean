import Potts.Scalar.Basic

/-!
# Boltzmann weights

At temperature `T` a level with `n` labels at energy `E` weighs `n * exp ((-E - k - C) / T + M)` for
a vertex of degree `k`. The shift `M` lifts the weights to the upper end of the range of the
numbers, so that they vanish as late as possible when the temperature falls and their sum stays
finite. The ceiling `C` is the largest `-E - k` that a vertex of the class can reach; it keeps every
exponent at or below `M` and drops out of all ratios.
-/

namespace Potts

variable {F : Type} [Scalar F]

/-- The shift for a number of labels: the logarithm of the largest number over ten times as many. -/
def boltzmannShift (labels : Nat) : F :=
  Scalar.ln (Scalar.greatest / ((max labels 1 : Nat) * Scalar.ten : F))

/-- What the weights of a degree class depend on, beside the energies. -/
structure Weighing (F : Type) where
  degree : F
  ceiling : F
  temperature : F
  shift : F
  deriving Repr

namespace Weighing

/-- The weight of a level with `size` labels. -/
def weight (w : Weighing F) (energy : F) (size : Nat) : F :=
  Scalar.exp ((-energy - w.degree - w.ceiling) / w.temperature + w.shift) * (size : F)

/-- The largest `-E - k` of a class whose lowest energy is `lowest` and whose vertices have at most
the strength `strength`; never negative, and zero without levels. -/
def ceilingOf (degree : Nat) (strength : F) (lowest : Option F) : F :=
  match lowest with
  | some energy => Scalar.larger (strength - (degree : F) - energy) Scalar.zero
  | none => Scalar.zero

end Weighing

end Potts

/-!
# Scalars

The numbers that weights, energies and temperatures are made of. Everything in the library that
computes with them is written against the class `Scalar`, so it can be run on binary floating point
and reasoned about for any interpretation of the operations, exact arithmetic included. The only law
asked of an interpretation is that `order`, by which energies are filed, is a total order up to
equality; the arithmetic and the tests `<`, `≤` and `==` are bound to nothing.
-/

namespace Potts

/-- A type of numbers with the operations that annealing needs. -/
class Scalar (F : Type) extends Add F, Sub F, Mul F, Div F, Neg F, NatCast F, IntCast F, BEq F,
    LT F, LE F where
  exp : F → F
  ln : F → F
  /-- The larger of two numbers; a value that is not a number gives way to the other one. -/
  larger : F → F → F
  isFinite : F → Bool
  /-- The spacing of the numbers just above one. -/
  epsilon : F
  /-- The largest finite number. -/
  greatest : F
  /-- The order by which energies are filed: total on all values, whatever `<` says of them. -/
  order : F → F → Ordering
  decidableLT : DecidableLT F
  decidableLE : DecidableLE F
  /-- Filing is consistent: the order is oriented and transitive. -/
  transCmp_order : Std.TransCmp order

namespace Scalar

variable {F : Type} [Scalar F]

instance : DecidableLT F := decidableLT

instance : DecidableLE F := decidableLE

instance : Std.TransCmp (order : F → F → Ordering) := transCmp_order

def zero : F := ((0 : Nat) : F)

def one : F := ((1 : Nat) : F)

def two : F := ((2 : Nat) : F)

def ten : F := ((10 : Nat) : F)

/-- The sum of a list, added from left to right. -/
def sum (l : List F) : F := l.foldl (· + ·) zero

/-- Whether two values are filed under the same key. -/
def sameKey (a b : F) : Bool := order a b == .eq

end Scalar

end Potts

import Potts.Scalar.Basic

/-!
# Random sources

A random source is a value that answers each draw with a number and with the source that is left.
The annealer is written against `RandomSource`, so what is proved of it holds for every stream of
random numbers. The one law asked of a source is that a draw below `n` is below `n`.
-/

namespace Potts

class RandomSource (R : Type) where
  word : R → UInt64 × R
  /-- A random number below `n`. -/
  below : R → (n : Nat) → Nat × R
  /-- A draw below a positive bound keeps to it. -/
  below_lt : ∀ (r : R) {n : Nat}, 0 < n → (below r n).1 < n

/-- A stream of random numbers that is fixed by a seed. -/
class SeededSource (R : Type) extends RandomSource R where
  ofSeed : UInt64 → R

namespace RandomSource

/-- The fraction of one that the upper 53 bits of a word stand for. -/
def fraction {F : Type} [Scalar F] (word : UInt64) : F :=
  ((word >>> 11).toNat : F) / ((1 <<< 52 : Nat) : F) / Scalar.two

/-- A random number from zero up to, but not including, one. -/
def unit {F R : Type} [Scalar F] [RandomSource R] (r : R) : F × R :=
  let (w, r) := word r
  (fraction w, r)

end RandomSource

end Potts

import Potts.Scalar.Basic

/-!
# Binary floating point as a scalar

The interpretation of `Scalar` that the library runs on: 64-bit binary floating point. Filing
compares the numbers by value, takes the two zeros for one, and puts everything that is not a number
behind infinity as a single value.
-/

namespace Potts.Binary64

/-- The bits of a value without its sign. -/
def magnitude (x : Float) : UInt64 := x.toBits &&& 0x7fffffffffffffff

/-- The filing position of a value. The magnitudes of numbers ascend with their absolute values, so
the positions of positive numbers lie above `2 ^ 63`, those of negative numbers below it, and both
zeros sit there; every value that is not a number takes the last position. -/
def position (x : Float) : UInt64 :=
  if x.isNaN then 0xffffffffffffffff
  else if x.toBits < 0x8000000000000000 then 0x8000000000000000 + magnitude x
  else 0x8000000000000000 - magnitude x

def larger (a b : Float) : Float :=
  if a.isNaN then b else if b.isNaN then a else if a < b then b else a

instance : Scalar Float where
  natCast := Float.ofNat
  intCast := Float.ofInt
  exp := Float.exp
  ln := Float.log
  larger := larger
  isFinite := Float.isFinite
  epsilon := Float.ofBits 0x3cb0000000000000
  greatest := Float.ofBits 0x7fefffffffffffff
  order := compareOn position
  decidableLT := inferInstance
  decidableLE := inferInstance
  transCmp_order := inferInstance

end Potts.Binary64

/-!
# The value of a floating-point word

A 64-bit binary floating-point word names a number `± significand * 2 ^ exponent`, an infinity, or
nothing. Decimal text is computed from that exact reading in natural-number arithmetic.
-/

namespace Potts.Decimal

/-- What a floating-point word stands for. -/
inductive Value where
  | undefined
  | infinite (negative : Bool)
  /-- The number `± significand * 2 ^ exponent`; zero keeps its sign. -/
  | finite (negative : Bool) (significand : Nat) (exponent : Int)
  deriving DecidableEq, Repr

/-- The reading of a word: one sign bit, eleven exponent bits, fifty-two fraction bits. -/
def Value.ofBits (bits : UInt64) : Value :=
  let word := bits.toNat
  let negative := (word >>> 63) == 1
  let field : Nat := (word >>> 52) % 2048
  let leading : Nat := 1 <<< 52
  let fraction : Nat := word % leading
  if field = 2047 then
    if fraction = 0 then .infinite negative else .undefined
  else if field = 0 then .finite negative fraction (-1074)
  else .finite negative (leading + fraction) ((field : Int) - 1075)

def Value.ofFloat (x : Float) : Value := .ofBits x.toBits

end Potts.Decimal

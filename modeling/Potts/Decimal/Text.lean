import Potts.Decimal.Value
import Potts.Decimal.Shortest

/-!
# Numbers as text

The three ways in which a number is written: in positional form with the shortest digits that read
back, in scientific form with the same digits, and with a fixed count of decimals, rounded exactly
with a half going to the even neighbour. A minus sign is written before every negative number, a
negative zero and a number that rounds to zero included.
-/

namespace Potts.Decimal

/-- A text moved to the right edge of a column of the given width. -/
def padLeft (columns : Nat) (text : String) : String :=
  "".pushn ' ' (columns - text.length) ++ text

def sign (negative : Bool) : String := if negative then "-" else ""

/-- A decimal in positional form: no exponent, no point after a whole number. -/
def Digits.positional (d : Digits) : String :=
  let text := toString d.digits
  if 0 ≤ d.exponent then text.pushn '0' d.exponent.toNat
  else
    let places := (-d.exponent).toNat
    let padded := "".pushn '0' (places + 1 - text.length) ++ text
    let whole := padded.length - places
    (padded.take whole).toString ++ "." ++ (padded.drop whole).toString

/-- A decimal in scientific form: one digit before the point, no point after a lone digit. -/
def Digits.scientific (d : Digits) : String :=
  let text := toString d.digits
  let exponent := toString (d.exponent + text.length - 1)
  let rest := (text.drop 1).toString
  let point := if rest.isEmpty then "" else "."
  (text.take 1).toString ++ point ++ rest ++ "e" ++ exponent

/-- The text of a value, given how to write the magnitude of a finite one. -/
def Value.render (magnitude : Nat → Int → String) : Value → String
  | .undefined => "NaN"
  | .infinite negative => sign negative ++ "inf"
  | .finite negative significand exponent => sign negative ++ magnitude significand exponent

def shortestOrZero (m : Nat) (q : Int) : Digits := if m = 0 then ⟨0, 0⟩ else shortest m q

/-- The quotient `a / b` rounded to the nearest whole number, a half to the even one. -/
def roundHalfEven (a b : Nat) : Nat :=
  let whole := a / b
  let twice := 2 * (a % b)
  if twice < b then whole
  else if b < twice then whole + 1
  else whole + whole % 2

/-- The number `m * 2 ^ q` with `places` decimals. -/
def fixedMagnitude (places m : Nat) (q : Int) : String :=
  let scaled := roundHalfEven ((m * Nat.pow 10 places) <<< q.toNat) (1 <<< (-q).toNat)
  if places = 0 then toString scaled
  else (Digits.mk scaled (-places)).positional

/-- The shortest digits that read back to `x`, in positional form. -/
def plain (x : Float) : String :=
  (Value.ofFloat x).render fun m q => (shortestOrZero m q).positional

/-- The shortest digits that read back to `x`, in scientific form. -/
def scientific (x : Float) : String :=
  (Value.ofFloat x).render fun m q => (shortestOrZero m q).scientific

/-- The number `x` with `places` decimals. -/
def fixed (places : Nat) (x : Float) : String :=
  (Value.ofFloat x).render (fixedMagnitude places)

end Potts.Decimal

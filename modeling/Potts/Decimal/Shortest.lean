/-!
# Shortest decimals

The decimal with the fewest digits that reads back to a given binary number, and of those the
nearest one. A number `m * 2 ^ q` is read back from every real of its rounding interval, which
reaches half a unit up and half a unit down, or a quarter down where the spacing of the numbers
halves below it; the interval's ends belong to it when `m` is even.

If a grid of decimals has a point in the interval, one of the two grid points next to the number
lies in it, so only those are tried, on grids of one digit, two digits and so on; seventeen digits
always suffice.
-/

namespace Potts.Decimal

/-- The decimal `digits * 10 ^ exponent`. -/
structure Digits where
  digits : Nat
  exponent : Int
  deriving DecidableEq, Repr

/-- How many decimal digits a natural number is written with. -/
def width (n : Nat) : Nat := (Nat.toDigits 10 n).length

/-- The exponent of the leading decimal digit of `m * 2 ^ q`, for positive `m`. -/
def leadingExponent (m : Nat) (q : Int) : Int :=
  let above := m <<< q.toNat
  let below := 1 <<< (-q).toNat
  if below ≤ above then width (above / below) - 1 else -(width ((below - 1) / above) : Int)

/-- A number `m * 2 ^ q` beside the grid of the multiples of `10 ^ e`, all measured in one unit: a
grid step is `step`, a quarter of the number's own unit is `quarter`. -/
structure Grid where
  significand : Nat
  step : Nat
  quarter : Nat

/-- The grid of the multiples of `10 ^ e` beside `m * 2 ^ q`. -/
def Grid.of (m : Nat) (q e : Int) : Grid where
  significand := m
  step := Nat.pow 10 e.toNat <<< (2 - q).toNat
  quarter := Nat.pow 10 (-e).toNat <<< (q - 2).toNat

namespace Grid

def place (g : Grid) : Nat := 4 * g.significand * g.quarter

/-- The last grid point that is not above the number. -/
def floor (g : Grid) : Nat := g.place / g.step

/-- Whether grid point `d` lies in the rounding interval; `narrow` tells that the spacing of the
numbers halves below this one. -/
def holds (g : Grid) (narrow : Bool) (d : Nat) : Bool :=
  let low := (4 * g.significand - if narrow then 1 else 2) * g.quarter
  let high := (4 * g.significand + 2) * g.quarter
  let point := d * g.step
  if g.significand % 2 = 0 then low ≤ point && point ≤ high else low < point && point < high

/-- Whether the next grid point is at least as near to the number as `floor` is. -/
def upward (g : Grid) : Bool :=
  (g.floor + 1) * g.step - g.place ≤ g.place - g.floor * g.step

/-- The grid point nearest to the number; of two equally near ones, the upper. -/
def nearest (g : Grid) : Nat := if g.upward then g.floor + 1 else g.floor

/-- The grid point of the rounding interval that is nearest to the number, if there is one. -/
def pick? (g : Grid) (narrow : Bool) : Option Nat :=
  match g.holds narrow g.floor, g.holds narrow (g.floor + 1) with
  | true, true => some g.nearest
  | true, false => some g.floor
  | false, true => some (g.floor + 1)
  | false, false => none

end Grid

/-- Drop up to `fuel` trailing zeros. -/
def Digits.trim : Nat → Digits → Digits
  | 0, d => d
  | fuel + 1, d =>
    if d.digits % 10 = 0 then Digits.trim fuel ⟨d.digits / 10, d.exponent + 1⟩ else d

/-- The shortest decimal that reads back to `m * 2 ^ q`, for positive `m`. -/
def shortest (m : Nat) (q : Int) : Digits :=
  let narrow := m = 1 <<< 52 && q > -1074
  let lead := leadingExponent m q
  let found := (List.range 16).findSome? fun i : Nat =>
    ((Grid.of m q (lead - i)).pick? narrow).map fun d => Digits.mk d (lead - i)
  let full := Digits.mk (Grid.of m q (lead - 16)).nearest (lead - 16)
  (found.getD full).trim 17

end Potts.Decimal

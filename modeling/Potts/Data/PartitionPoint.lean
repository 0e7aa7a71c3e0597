/-!
# Partition points

Where a test stops to hold along a row of positions, found by halving. The halving always looks at
the same positions for a row of the same length, so the answer is fixed also where the test does not
hold for a leading part of the row only.
-/

namespace Potts

/-- Narrow a range of `size` positions from `base` down to one: the upper half is kept when the test
holds at its first position. -/
def narrow (test : Nat → Bool) (size base : Nat) : Nat :=
  if 1 < size then
    let half := size / 2
    narrow test (size - half) (if test (base + half) then base + half else base)
  else base
termination_by size

/-- The number of leading positions below `size` at which the test holds. -/
def partitionPoint (test : Nat → Bool) (size : Nat) : Nat :=
  if size = 0 then 0
  else
    let last := narrow test size 0
    if test last then last + 1 else last

end Potts

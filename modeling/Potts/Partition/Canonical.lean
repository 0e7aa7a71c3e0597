import Potts.Data.SortedMap

/-!
# Canonical labels

A partition does not depend on how its communities are called. The canonical labels number the
communities from zero in the order in which they first appear.
-/

namespace Potts.Partition

/-- The canonical labels of a list, where `seen` holds the numbers that are already given. -/
def canonicalFrom (seen : SortedMap Nat Nat compare) : List Nat → List Nat
  | [] => []
  | label :: rest =>
    match seen.get? label with
    | some number => number :: canonicalFrom seen rest
    | none => seen.size :: canonicalFrom (seen.insert label seen.size) rest

/-- The labels renumbered in the order of first appearance. -/
def canonical (labels : List Nat) : List Nat := canonicalFrom .empty labels

end Potts.Partition

import Potts.Data.SortedMap
import Potts.Failure.Fault

/-!
# Tallies

Amounts kept by label. A label whose amount comes down to zero loses its entry.
-/

namespace Potts

/-- An amount for each of some labels. -/
abbrev Tally := SortedMap Nat Nat compare

namespace Tally

/-- The amount of a label; zero without an entry. -/
def amount (t : Tally) (label : Nat) : Nat := (SortedMap.get? t label).getD 0

def raise (t : Tally) (label more : Nat) : Tally :=
  SortedMap.alter t label fun amount => some (amount.getD 0 + more)

/-- Take from the amount of a label, if it has an entry. -/
def lower {F : Type} (t : Tally) (label less : Nat) : Checked F Tally :=
  match SortedMap.get? t label with
  | none => .ok t
  | some amount => do
    let rest ← Checked.sub amount less
    return if rest = 0 then SortedMap.erase t label else SortedMap.insert t label rest

end Tally

end Potts

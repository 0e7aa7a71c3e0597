import Potts.Partition.Tally

/-!
# Populations

How many vertices hold each label. Only occupied labels have an entry: the entry of a label goes
when its last vertex leaves and comes back with the next one.
-/

namespace Potts

/-- The number of vertices that hold each label. -/
structure Population where
  /-- The counts of the occupied labels. -/
  counts : Tally
  total : Nat

namespace Population

def empty : Population := ⟨.empty, 0⟩

def add (p : Population) (label : Nat) : Population := ⟨p.counts.raise label 1, p.total + 1⟩

/-- One vertex leaves `label`, which has to be occupied. -/
def remove {F : Type} (p : Population) (label : Nat) : Checked F Population :=
  if p.counts.contains label then do
    let counts ← p.counts.lower label 1
    let total ← Checked.sub p.total 1
    return ⟨counts, total⟩
  else .error (.unoccupied label)

def transfer {F : Type} (p : Population) (source target : Nat) : Checked F Population := do
  let p ← p.remove source
  return p.add target

/-- The population of a list of labels, one for each vertex. -/
def ofLabels (labels : List Nat) : Population := labels.foldl add empty

def count (p : Population) (label : Nat) : Nat := p.counts.amount label

def occupied (p : Population) : Nat := p.counts.size

/-- The number of vertices, counted from the entries. -/
def recount (p : Population) : Nat := p.counts.values.foldr (· + ·) 0

end Population

end Potts

import Potts.Data.SortedMap
import Potts.Failure.Fault
import Potts.Scalar.Basic

/-!
# Spectra

A spectrum files labels under energies. Labels at the same energy share a level, levels ascend, and
a level goes when its last label leaves. Energies are compared in the filing order of the scalars.
-/

namespace Potts

abbrev LabelSet := SortedSet Nat compare

/-- The energy levels of a set of labels. -/
structure Spectrum (F : Type) [Scalar F] where
  /-- The labels at every energy that has any. -/
  levels : SortedMap F LabelSet Scalar.order

namespace Spectrum

variable {F : Type} [Scalar F]

def empty : Spectrum F := ⟨.empty⟩

def insert (s : Spectrum F) (energy : F) (label : Nat) : Spectrum F :=
  ⟨s.levels.alter energy fun labels => some (SortedSet.add (labels.getD .empty) label)⟩

/-- The labels at exactly this energy, if there are any. -/
def level? (s : Spectrum F) (energy : F) : Option LabelSet := s.levels.get? energy

/-- Whether `label` is filed at `energy`. -/
def holds (s : Spectrum F) (energy : F) (label : Nat) : Bool :=
  (s.level? energy).any fun labels => labels.contains label

/-- Take `label` out of the level at `energy`, where it has to be. -/
def remove (s : Spectrum F) (energy : F) (label : Nat) : Checked F (Spectrum F) :=
  if s.holds energy label then
    .ok ⟨s.levels.alter energy fun labels =>
      let rest := SortedSet.remove (labels.getD .empty) label
      if rest.isEmpty then none else some rest⟩
  else .error (.unindexed label energy)

/-- Move `label` from one level, where it has to be, to another. -/
def relocate (s : Spectrum F) (label : Nat) (source target : F) : Checked F (Spectrum F) := do
  let s ← s.remove source label
  return s.insert target label

def minimum? (s : Spectrum F) : Option (F × LabelSet) := s.levels.entries.head?

/-- The levels with their energies, ascending. -/
def toList (s : Spectrum F) : List (F × LabelSet) := s.levels.entries

def size (s : Spectrum F) : Nat := s.levels.size

/-- The number of labels, summed over the levels. -/
def labelCount (s : Spectrum F) : Nat :=
  s.levels.values.foldr (fun labels count => labels.size + count) 0

/-- The labels below `n` that share an energy, for every energy, the last label first. -/
def groups (n : Nat) (energy : Nat → F) : SortedMap F (List Nat) Scalar.order :=
  (List.range n).foldl
    (fun groups label =>
      groups.alter (energy label) fun labels => some (label :: labels.getD []))
    .empty

/-- The spectrum of the labels below `n`, filed one after the other where `energy` says. -/
def ofLabels (n : Nat) (energy : Nat → F) : Spectrum F :=
  ⟨(groups n energy).mapValues SortedSet.ofList⟩

end Spectrum

end Potts

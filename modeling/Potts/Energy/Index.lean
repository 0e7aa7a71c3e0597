import Potts.Energy.Spectrum
import Potts.Graph.DegreeClass

/-!
# Energy indices

Vertices of the same degree meet the same energies, so there is one spectrum for each degree class.
-/

namespace Potts

/-- The spectra of the degree classes, which are numbered from zero. -/
structure EnergyIndex (F : Type) [Scalar F] where
  degrees : Array Nat
  /-- The class of every degree that has one. -/
  classOf : SortedMap Nat Nat compare
  spectra : Array (Spectrum F)

namespace EnergyIndex

variable {F : Type} [Scalar F]

/-- The index of the labels below `n` for each of these degrees, where `energy` says where a label
is filed for a degree. -/
def build (degrees : List Nat) (n : Nat) (energy : Nat → Nat → F) : EnergyIndex F where
  degrees := degrees.toArray
  classOf := classNumbers degrees
  spectra := (degrees.map fun degree => Spectrum.ofLabels n (energy degree)).toArray

def class? (index : EnergyIndex F) (degree : Nat) : Option Nat := index.classOf.get? degree

def spectrum (index : EnergyIndex F) (c : Nat) : Checked F (Spectrum F) :=
  Checked.fetch index.spectra c

def setSpectrum (index : EnergyIndex F) (c : Nat) (s : Spectrum F) : EnergyIndex F :=
  { index with spectra := index.spectra.setIfInBounds c s }

def modifyM (index : EnergyIndex F) (c : Nat) (f : Spectrum F → Checked F (Spectrum F)) :
    Checked F (EnergyIndex F) := do
  let s ← index.spectrum c
  return index.setSpectrum c (← f s)

def classCount (index : EnergyIndex F) : Nat := index.spectra.size

/-- The number of levels, summed over the classes. -/
def levelCount (index : EnergyIndex F) : Nat :=
  index.spectra.toList.foldr (fun s count => s.size + count) 0

end EnergyIndex

end Potts

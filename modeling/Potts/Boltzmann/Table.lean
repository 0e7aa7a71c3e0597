import Potts.Boltzmann.Weight
import Potts.Data.PartitionPoint
import Potts.Energy.Spectrum
import Potts.Random.Source

/-!
# Boltzmann tables

A table from which energies are drawn by their weight. Its entries carry the sums of the weights up
to and including their own, so a draw scales a random number to the last sum and looks for the first
sum above it. A level whose weight does not change the sum has no entry.

A table is built once for a degree class. The few levels that a vertex changes are patched instead:
`perturb` marks the entries of the touched energies as invalid and appends new ones, a draw that
meets an invalid entry is repeated, and `restore` takes all of it back.
-/

namespace Potts

structure TableEntry (F : Type) where
  /-- The sum of the weights up to and including this entry. -/
  bound : F
  energy : F
  /-- Whether a draw may take this entry. -/
  valid : Bool
  deriving Repr

/-- The sums of the Boltzmann weights of a spectrum. -/
structure BoltzmannTable (F : Type) [Scalar F] where
  /-- The entries, those of the build first. -/
  entries : Array (TableEntry F)
  /-- The positions of the entries of the build. -/
  slots : SortedMap F Nat Scalar.order
  /-- The number of entries of the build. -/
  builtSize : Nat
  /-- The positions of the invalid entries. -/
  invalidated : List Nat
  valid : Nat
  /-- Whether the least energy is taken instead of a draw. -/
  steepest : Bool
  weighing : Weighing F

namespace BoltzmannTable

variable {F : Type} [Scalar F]

/-- The sum of all weights, those of appended entries included. -/
def total (t : BoltzmannTable F) : F := (t.entries.back?.map TableEntry.bound).getD Scalar.zero

def size (t : BoltzmannTable F) : Nat := t.entries.size

/-! ## Building -/

/-- Append a level, unless its weight does not change the sum. -/
def append? (t : BoltzmannTable F) (energy : F) (labels : Nat) : Option (BoltzmannTable F) :=
  let bound := t.total + t.weighing.weight energy labels
  if bound == t.total then none
  else some { t with entries := t.entries.push ⟨bound, energy, true⟩, valid := t.valid + 1 }

def addLevel (t : BoltzmannTable F) (level : F × LabelSet) : BoltzmannTable F :=
  match t.append? level.1 level.2.size with
  | some t' =>
    { t' with slots := t.slots.insert level.1 t.entries.size, builtSize := t'.entries.size }
  | none => t

def empty (weighing : Weighing F) : BoltzmannTable F :=
  ⟨#[], .empty, 0, [], 0, false, weighing⟩

/-- The table of a spectrum for the vertices of a degree, whose strengths are at most `strength`. It
takes the least energy from the start if no weight is left. -/
def build (s : Spectrum F) (degree : Nat) (strength temperature shift : F) : BoltzmannTable F :=
  let ceiling := Weighing.ceilingOf degree strength (s.minimum?.map Prod.fst)
  let t := s.toList.foldl addLevel (empty ⟨(degree : F), ceiling, temperature, shift⟩)
  { t with steepest := t.total == Scalar.zero }

def enterSteepest (t : BoltzmannTable F) : BoltzmannTable F := { t with steepest := true }

/-! ## Patching -/

/-- Mark the entry that the build made for an energy as invalid. -/
def invalidate (t : BoltzmannTable F) (energy : F) : Checked F (BoltzmannTable F) :=
  match t.slots.get? energy with
  | none => .ok t
  | some i => do
    let entry ← Checked.fetch t.entries i
    if entry.valid then
      let valid ← Checked.sub t.valid 1
      return { t with
        entries := t.entries.setIfInBounds i { entry with valid := false }
        invalidated := i :: t.invalidated
        valid := valid }
    else return t

/-- Patch one touched energy: what was built for it goes, the level that is there now comes. The
second component counts appended entries. -/
def perturbOne (s : Spectrum F) (patched : BoltzmannTable F × Nat) (energy : F) :
    Checked F (BoltzmannTable F × Nat) := do
  let t ← patched.1.invalidate energy
  match (s.level? energy).bind fun labels => t.append? energy labels.size with
  | some t => return (t, patched.2 + 1)
  | none => return (t, patched.2)

/-- Patch the touched energies to a changed spectrum, and count the entries that are appended. -/
def perturb (t : BoltzmannTable F) (s : Spectrum F) (touched : List F) :
    Checked F (BoltzmannTable F × Nat) :=
  touched.foldlM (perturbOne s) (t, 0)

def revalidate (entries : Array (TableEntry F)) (i : Nat) : Checked F (Array (TableEntry F)) := do
  let entry ← Checked.fetch entries i
  return entries.setIfInBounds i { entry with valid := true }

/-- Take all patches back: appended entries go, invalid entries become valid. -/
def restore (t : BoltzmannTable F) : Checked F (BoltzmannTable F) := do
  let entries ← t.invalidated.foldlM revalidate (t.entries.take t.builtSize)
  return { t with entries := entries, invalidated := [], valid := entries.size }

/-! ## Drawing -/

/-- The position at which a scaled random number lands: the first entry whose bound is above it, or
the last entry. -/
def landing (t : BoltzmannTable F) (scaled : F) : Nat :=
  let covered := fun i : Nat => t.entries[i]?.any fun e => decide (e.bound ≤ scaled)
  min (partitionPoint covered t.entries.size) (t.entries.size - 1)

/-- What a random number is scaled to: the sum of the weights, but not less than the spacing of the
numbers at one. -/
def span (t : BoltzmannTable F) : F := Scalar.larger t.total Scalar.epsilon

/-- Draw up to `tries` times, until a valid entry is met. -/
def drawWithin {R : Type} [RandomSource R] (t : BoltzmannTable F) :
    (tries : Nat) → R → Checked F (Option F × R)
  | 0, r => .ok (none, r)
  | tries + 1, r =>
    let (u, r) := RandomSource.unit (F := F) r
    match t.entries[t.landing (u * t.span)]? with
    | some entry => if entry.valid then .ok (some entry.energy, r) else drawWithin t tries r
    | none => .error .outOfRange

def maxTries : Nat := 65536

/-- Draw an energy by its weight. There is none when no entry is valid, and when no valid entry is
met in the allowed number of tries. -/
def draw {R : Type} [RandomSource R] (t : BoltzmannTable F) (r : R) : Checked F (Option F × R) :=
  if t.valid = 0 then .ok (none, r)
  else if t.entries.size = 0 then .error .underflow
  else drawWithin t maxTries r

end BoltzmannTable

end Potts

import Potts.Data.SortedMap
import Potts.Failure.Error
import Potts.Property.Map
import Potts.Scalar.Basic

/-!
# Property stores

Property maps by name. Vertex maps and edge maps share one set of names, which are listed in the
order of their characters. A map is read as edge weights or as vertex labels; a reading is refused
when no map has the name, when the map has the wrong shape, when it has the wrong length, and, for
labels, when a label is negative, the first of these reasons being reported.
-/

namespace Potts

structure PropertyStore (F : Type) where
  maps : SortedMap String (PropertyMap F) compare

namespace PropertyStore

variable {F : Type}

def empty : PropertyStore F := ⟨.empty⟩

def get? (s : PropertyStore F) (name : String) : Option (PropertyMap F) := s.maps.get? name

def contains (s : PropertyStore F) (name : String) : Bool := s.maps.contains name

/-- The store with a map under a name, in the place of any map that had the name before. -/
def insert (s : PropertyStore F) (name : String) (map : PropertyMap F) : PropertyStore F :=
  ⟨s.maps.insert name map⟩

def erase (s : PropertyStore F) (name : String) : PropertyStore F := ⟨s.maps.erase name⟩

def names (s : PropertyStore F) : List String := s.maps.keys

/-! ## Reading -/

/-- The map of a name that is to be read. -/
def find (s : PropertyStore F) (name : String) : Except (Error F) (PropertyMap F) :=
  match s.get? name with
  | some map => .ok map
  | none => .error (.propertyNotFound name)

/-- A list that has to have a length. -/
def ofLength {α : Type} (expected : Nat) (values : List α) : Except (Error F) (List α) :=
  if values.length = expected then .ok values
  else .error (.dimensionMismatch expected values.length)

/-- The weights of a map of edges; whole numbers are converted. -/
def weightsOf? [Scalar F] (map : PropertyMap F) : Option (List F) :=
  match map with
  | ⟨.edge, .real values⟩ => some values
  | ⟨.edge, .integer values⟩ => some (values.map fun n : Int => (n : F))
  | _ => none

/-- Read the map of a name as weights, one for each of `edgeCount` edges. -/
def edgeWeights [Scalar F] (s : PropertyStore F) (name : String) (edgeCount : Nat) :
    Except (Error F) (List F) := do
  let map ← s.find name
  match weightsOf? map with
  | some weights => ofLength edgeCount weights
  | none => .error (.propertyType name .edgeWeights map.shape)

/-- The labels of a map of vertices. -/
def labelsOf? (map : PropertyMap F) : Option (List Int) :=
  match map with
  | ⟨.vertex, .integer values⟩ => some values
  | _ => none

/-- The label of a vertex, which must not be negative. -/
def labelOf (value : Int × Nat) : Except (Error F) Nat :=
  match value.1 with
  | .ofNat label => .ok label
  | .negSucc _ => .error (.invalidLabel value.2 value.1)

/-- Read the map of a name as labels, one for each of `vertices` vertices. -/
def vertexLabels (s : PropertyStore F) (name : String) (vertices : Nat) :
    Except (Error F) (List Nat) := do
  let map ← s.find name
  match labelsOf? map with
  | some values => do
    let values ← ofLength vertices values
    values.zipIdx.mapM labelOf
  | none => .error (.propertyType name .vertexLabels map.shape)

/-! ## Writing -/

/-- The whole number that is stored for a label. Stored numbers have 64 bits, one of them the sign,
and a label beyond their range goes round. -/
def storedLabel (label : Nat) : Int := (label : Int).bmod UInt64.size

end PropertyStore

end Potts

import Potts.Property.Shape

/-!
# Property maps

A property map holds one value for each vertex or for each edge of a graph, by its number.
-/

namespace Potts

/-- The values of a property map, by the number of their vertex or edge. -/
inductive PropertyValues (F : Type) where
  | real (values : List F)
  | integer (values : List Int)
  | text (values : List String)
  deriving Repr

namespace PropertyValues

variable {F : Type}

def size : PropertyValues F → Nat
  | .real values => values.length
  | .integer values => values.length
  | .text values => values.length

def isEmpty (v : PropertyValues F) : Bool := v.size == 0

def kind : PropertyValues F → ValueKind
  | .real _ => .real
  | .integer _ => .integer
  | .text _ => .text

end PropertyValues

structure PropertyMap (F : Type) where
  site : Site
  values : PropertyValues F
  deriving Repr

def PropertyMap.shape {F : Type} (m : PropertyMap F) : Shape := ⟨m.site, m.values.kind⟩

end Potts

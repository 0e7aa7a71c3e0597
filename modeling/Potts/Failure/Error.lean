import Potts.Decimal.Text
import Potts.Property.Shape

/-!
# Errors

The reasons for which the library refuses an input, and their wording. An error is the caller's: the
graph, the weights, the settings or a property map are not what they have to be.
-/

namespace Potts

/-- The settings that are checked before any work is done. -/
inductive Parameter where
  | resolution
  | hottest
  | coldest
  | trials
  deriving DecidableEq, Repr

def Parameter.name : Parameter → String
  | .resolution => "resolution"
  | .hottest => "t_max"
  | .coldest => "t_min"
  | .trials => "n_trials"

/-- What is asked of a setting. -/
def Parameter.demand : Parameter → String
  | .resolution => "must be finite and positive"
  | .hottest => "must be finite and positive"
  | .coldest => "must be finite"
  | .trials => "must be at least 1"

/-- Why an input is refused. -/
inductive Error (F : Type) where
  | emptyInput
  /-- A list does not have the length that the graph asks for, or a vertex is not in the graph. -/
  | dimensionMismatch (expected found : Nat)
  | invalidParameter (parameter : Parameter)
  | invalidWeight (edge : Nat) (value : F)
  /-- A stored label is negative. -/
  | invalidLabel (vertex : Nat) (value : Int)
  | propertyNotFound (name : String)
  /-- A property map cannot be read as it is asked to be. -/
  | propertyType (name : String) (wanted : Reading) (found : Shape)
  deriving Repr

def Error.message : Error Float → String
  | .emptyInput => "empty input provided"
  | .dimensionMismatch expected found =>
    s!"dimension mismatch: expected {expected}, found {found}"
  | .invalidParameter parameter =>
    s!"invalid parameter '{parameter.name}': {parameter.demand}"
  | .invalidWeight edge value => s!"invalid weight {Decimal.plain value} on edge {edge}"
  | .invalidLabel vertex value => s!"invalid label {value} on vertex {vertex}"
  | .propertyNotFound name => s!"error getting scalar property: property '{name}' not found"
  | .propertyType name wanted found =>
    s!"error getting scalar property: '{name}' is {found.describe}, expected {wanted.describe}"

end Potts

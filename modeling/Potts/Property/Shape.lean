/-!
# Shapes of property maps

What a property map is keyed by and what kind of values it holds, and how a shape is described in
words.
-/

namespace Potts

/-- What a property map is keyed by. -/
inductive Site where
  | vertex
  | edge
  deriving DecidableEq, Repr

/-- The kind of values a property map holds. -/
inductive ValueKind where
  | real
  | integer
  | text
  deriving DecidableEq, Repr

structure Shape where
  site : Site
  kind : ValueKind
  deriving DecidableEq, Repr

/-- A shape in words. -/
def Shape.describe : Shape → String
  | ⟨.vertex, .real⟩ => "a real vertex property"
  | ⟨.vertex, .integer⟩ => "an integer vertex property"
  | ⟨.vertex, .text⟩ => "a text vertex property"
  | ⟨.edge, .real⟩ => "a real edge property"
  | ⟨.edge, .integer⟩ => "an integer edge property"
  | ⟨.edge, .text⟩ => "a text edge property"

/-- What a property map is read as. -/
inductive Reading where
  /-- Weights, one for each edge. -/
  | edgeWeights
  /-- Community labels, one for each vertex. -/
  | vertexLabels
  deriving DecidableEq, Repr

/-- The shapes that a reading accepts, in words. -/
def Reading.describe : Reading → String
  | .edgeWeights => "a numeric edge property"
  | .vertexLabels => "an integer vertex property"

end Potts

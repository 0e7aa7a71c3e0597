/-!
# Kinds of null model

A null model says how much weight a vertex would have into a label if the edges were placed at
random. The kinds differ in what they keep of the network.
-/

namespace Potts.NullModel

/-- What a null model keeps of the network. -/
inductive Kind where
  /-- The density of edges. -/
  | independent
  /-- The degree of every vertex. -/
  | uncorrelated
  /-- The degrees, and how often vertices of two degrees are joined. -/
  | correlated
  deriving DecidableEq, Repr

def Kind.name : Kind → String
  | .independent => "Independent"
  | .uncorrelated => "Uncorrelated"
  | .correlated => "Correlated"

end Potts.NullModel

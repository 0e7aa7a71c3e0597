import Potts.Annealing.Run
import Potts.Partition.Modularity
import Potts.Property.Store

/-!
# Graphs with property maps

A graph together with named property maps of its vertices and edges. Detection reads edge weights by
name and writes the labels it finds under a name; it writes nothing unless all of it succeeds. The
maps do not follow the graph: one that was made before a vertex or an edge was added no longer fits.
-/

namespace Potts

structure AttributedGraph (F : Type) where
  graph : Multigraph
  properties : PropertyStore F

/-- A change of a graph with property maps that can fail; a failure keeps what was written. -/
abbrev Edit (F α : Type) := ExceptT (Failure F) (StateM (AttributedGraph F)) α

/-- A result that an edit goes on with, or fails with. -/
def Edit.check {F α : Type} (r : Except (Failure F) α) : Edit F α := ExceptT.mk (pure r)

/-- What a detection on a graph with property maps did, beside the labels that it wrote. -/
structure Detection (F : Type) where
  run : Annealing.Run F
  /-- Whether a map had their name before. -/
  replaced : Bool
  deriving Repr

namespace AttributedGraph

variable {F : Type}

def ofGraph (g : Multigraph) : AttributedGraph F := ⟨g, .empty⟩

def setProperty (g : AttributedGraph F) (name : String) (map : PropertyMap F) : AttributedGraph F :=
  { g with properties := g.properties.insert name map }

/-- Write real edge weights under a name; there has to be one for each edge. -/
def setEdgeWeights (name : String) (weights : List F) : Edit F Unit := do
  let g ← get
  let weights ← Edit.check (Failure.ofError (PropertyStore.ofLength g.graph.edgeCount weights))
  set (g.setProperty name ⟨.edge, .real weights⟩)

/-- The edge weights of a name, or none without a name. -/
def weights [Scalar F] (g : AttributedGraph F) (name : Option String) :
    Except (Error F) (Option (List F)) :=
  match name with
  | none => .ok none
  | some name => some <$> g.properties.edgeWeights name g.graph.edgeCount

/-- Detect communities, with the edge weights of a name or without weights, and write the label of
every vertex under a name. -/
def detect [Scalar F] (R : Type) [SeededSource R] (d : Detector F) (weight : Option String)
    (property : String) : Edit F (Detection F) := do
  let g ← get
  let weights ← Edit.check (Failure.ofError (g.weights weight))
  let run ← Edit.check (d.run R g.graph weights)
  set (g.setProperty property ⟨.vertex, .integer (run.labels.map PropertyStore.storedLabel)⟩)
  return ⟨run, g.properties.contains property⟩

/-- The modularity of the labels of a name, with the edge weights of a name or without weights. The
labels are read first. -/
def modularity [Scalar F] (g : AttributedGraph F) (weight : Option String) (property : String) :
    Except (Error F) F := do
  let labels ← g.properties.vertexLabels property g.graph.vertices
  let weights ← g.weights weight
  Partition.modularityOf g.graph weights labels

end AttributedGraph

end Potts

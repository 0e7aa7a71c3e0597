import Potts.Graph.Network
import Potts.Partition.Tally

/-!
# Modularity

How much more weight lies inside the communities of a partition than their degrees would let one
expect:

  `Q = (Σ 2 w(e) over the edges inside a community - Σ K² / 2m over the communities) / 2W`

where `W` is the total weight, `m` the number of edges and `K` the sum of a community's degrees. A
network without edges or without weight, and a partition with fewer than two communities, scores
zero.
-/

namespace Potts.Partition

variable {F : Type} [Scalar F]

/-- The sum of the degrees in every community. -/
def communityDegrees (net : Network F) (labels : List Nat) : Tally :=
  labels.zipIdx.foldl (fun sums held => sums.raise held.1 (net.degree held.2)) .empty

/-- Twice the weight of the edges inside a community, added in the order of the edges. -/
def internalWeight (net : Network F) (labels : Array Nat) : F :=
  let inside := net.edges.filter fun e => labels[e.source]? == labels[e.target]?
  Scalar.sum (inside.map fun e => Scalar.two * e.weight)

/-- The internal weight that the degrees let one expect. The squares are added in ascending order,
so that the names of the communities do not matter. -/
def expectedWeight (net : Network F) (sums : List Nat) : F :=
  Scalar.sum (sums.mergeSort.map fun k : Nat => (k : F) * (k : F)) / ((net.totalDegree : Nat) : F)

/-- The modularity of a partition, given by one label for each vertex. -/
def modularity (net : Network F) (labels : List Nat) : Except (Error F) F :=
  if labels.length ≠ net.size then .error (.dimensionMismatch net.size labels.length)
  else if net.edgeCount = 0 ∨ (net.totalWeight == Scalar.zero) = true then .ok Scalar.zero
  else
    let sums := communityDegrees net labels
    if sums.size < 2 then .ok Scalar.zero
    else
      let excess := internalWeight net labels.toArray - expectedWeight net sums.values
      .ok (excess / (Scalar.two * net.totalWeight))

/-- The modularity of a partition of a graph, without weights or with one for each edge. -/
def modularityOf (g : Multigraph) (weights : Option (List F)) (labels : List Nat) :
    Except (Error F) F := do
  let net ← Network.ofGraph g weights
  modularity net labels

end Potts.Partition

import Potts.Data.SortedMap
import Potts.Graph.Network

/-!
# Degree classes

The vertices of a network fall into classes by their degree. Classes are numbered by their place in
a list of degrees.
-/

namespace Potts

/-- The degrees that occur in a network, ascending. -/
def Network.degreeClasses {F : Type} [Scalar F] (net : Network F) : List Nat :=
  SortedSet.toList (SortedSet.ofList net.degrees : SortedSet Nat compare)

/-- The class number of every degree of a list: the last place at which the degree stands. -/
def classNumbers (degrees : List Nat) : SortedMap Nat Nat compare := .ofList degrees.zipIdx

theorem lt_of_get?_classNumbers {degrees : List Nat} {degree c : Nat}
    (h : (classNumbers degrees).get? degree = some c) : c < degrees.length := by
  obtain ⟨entry, hentry, rfl⟩ := SortedMap.exists_mem_of_get?_ofList h
  exact List.snd_lt_of_mem_zipIdx hentry

end Potts

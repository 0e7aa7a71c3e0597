import Mathlib.Data.List.Induction
import Potts.Graph.DegreeClass
import Potts.Proofs.Data.SortedMap

/-!
# Degree classes of a network

The degree classes of a network are its degrees, each once, and the class number of a degree is its
place among them.
-/

namespace Potts

namespace Network

variable {F : Type} [Scalar F] (net : Network F)

theorem mem_degreeClasses {degree : Nat} :
    degree ∈ net.degreeClasses ↔ ∃ v < net.size, net.degree v = degree := by
  rw [degreeClasses, SortedSet.mem_toList, SortedSet.contains_ofList, List.contains_iff_mem,
    degrees, List.mem_map]
  simp only [List.mem_range]

theorem nodup_degreeClasses : net.degreeClasses.Nodup := SortedSet.nodup_toList _

end Network

theorem classNumbers_concat (degrees : List Nat) (a : Nat) :
    classNumbers (degrees ++ [a]) = (classNumbers degrees).insert a degrees.length := by
  rw [classNumbers, classNumbers, List.zipIdx_append, SortedMap.ofList, List.foldl_append]
  simp [SortedMap.ofList]

theorem get?_classNumbers {degrees : List Nat} (hnodup : degrees.Nodup) {degree c : Nat} :
    (classNumbers degrees).get? degree = some c ↔ degrees[c]? = some degree := by
  induction degrees using List.reverseRecOn with
  | nil => simp [classNumbers, SortedMap.ofList]
  | append_singleton degrees a ih =>
    rw [List.nodup_append] at hnodup
    obtain ⟨hdegrees, -, hne⟩ := hnodup
    rw [classNumbers_concat, SortedMap.get?_insert_label, List.getElem?_append]
    by_cases hd : degree = a
    · subst hd
      have hold : ∀ i, degrees[i]? ≠ some degree := fun i hi =>
        hne degree (List.mem_of_getElem? hi) degree List.mem_cons_self rfl
      rw [if_pos rfl]
      constructor
      · intro h
        cases h
        rw [if_neg (Nat.lt_irrefl _), Nat.sub_self]
        rfl
      · intro h
        split at h
        · exact absurd h (hold c)
        · obtain ⟨hlt, -⟩ := List.getElem?_eq_some_iff.1 h
          rw [List.length_singleton] at hlt
          exact congrArg some (by omega)
    · rw [if_neg hd, ih hdegrees]
      split
      · rfl
      · rename_i hle
        rw [List.getElem?_eq_none (by omega)]
        simp [List.getElem?_singleton, Ne.symm hd]

namespace Network

variable {F : Type} [Scalar F] (net : Network F)

theorem exists_class {v : Nat} (hv : v < net.size) :
    ∃ c, net.degreeClasses[c]? = some (net.degree v) ∧
      (classNumbers net.degreeClasses).get? (net.degree v) = some c := by
  have hmem : net.degree v ∈ net.degreeClasses := (mem_degreeClasses net).2 ⟨v, hv, rfl⟩
  obtain ⟨c, hc⟩ := List.mem_iff_getElem?.1 hmem
  exact ⟨c, hc, (get?_classNumbers net.nodup_degreeClasses).2 hc⟩

end Network

end Potts

import Mathlib.Data.List.Basic
import Potts.Proofs.Data.SortedMap
import Potts.Property.Store

/-!
# Reading what is stored

A store answers a name with the map that was last written under it. Weights can be read under a name
exactly when the map of the name holds as many numbers as there are edges, and labels that are in
the range of stored numbers are read as they were written.
-/

namespace Potts.PropertyStore

variable {F : Type}

@[simp]
theorem get?_insert (s : PropertyStore F) (name other : String) (map : PropertyMap F) :
    (s.insert name map).get? other = if other = name then some map else s.get? other := by
  simp only [get?, insert, SortedMap.get?_insert, Std.LawfulEqCmp.compare_eq_iff_eq]

theorem find_of_get? {s : PropertyStore F} {name : String} {map : PropertyMap F}
    (h : s.get? name = some map) : s.find name = .ok map := by
  rw [find, h]

/-! ## Weights -/

section Weights

variable [Scalar F] {s : PropertyStore F} {name : String}

/-- The map of a name can be read as weights, one for each of `edgeCount` edges. -/
def HoldsWeights (s : PropertyStore F) (name : String) (edgeCount : Nat) : Prop :=
  ∃ map weights, s.get? name = some map ∧ weightsOf? map = some weights ∧
    weights.length = edgeCount

theorem edgeWeights_eq_ok_iff {edgeCount : Nat} :
    (∃ weights, s.edgeWeights name edgeCount = .ok weights) ↔ s.HoldsWeights name edgeCount := by
  rw [HoldsWeights]
  cases hget : s.get? name with
  | none => simp [edgeWeights, find, hget, bind, Except.bind]
  | some map =>
    cases hweights : weightsOf? map with
    | none => simp [edgeWeights, find, hget, hweights, bind, Except.bind]
    | some ws =>
      by_cases hlength : ws.length = edgeCount <;>
        simp [edgeWeights, find, hget, hweights, bind, Except.bind, ofLength, hlength]

theorem edgeWeights_insert_of_ne {other : String} (map : PropertyMap F) (edgeCount : Nat)
    (h : name ≠ other) :
    (s.insert other map).edgeWeights name edgeCount = s.edgeWeights name edgeCount := by
  rw [edgeWeights, edgeWeights, find, find, get?_insert, if_neg h]

end Weights

/-! ## Labels -/

theorem storedLabel_of_lt {label : Nat} (h : label < 2 ^ 63) : storedLabel label = label := by
  have hsize : UInt64.size = 2 * 2 ^ 63 := by rfl
  have hlow : -((UInt64.size : Int) / 2) ≤ label := by omega
  have hhigh : (label : Int) < ((UInt64.size : Int) + 1) / 2 := by omega
  exact Int.bmod_eq_of_le hlow hhigh

theorem map_storedLabel {labels : List Nat} (h : ∀ label ∈ labels, label < 2 ^ 63) :
    labels.map storedLabel = labels.map Int.ofNat :=
  List.map_congr_left fun label hlabel => storedLabel_of_lt (h label hlabel)

theorem mapM_labelOf (labels : List Nat) (k : Nat) :
    ((labels.map Int.ofNat).zipIdx k).mapM (labelOf (F := F)) = .ok labels := by
  induction labels generalizing k with
  | nil => rfl
  | cons label labels ih =>
    rw [List.map_cons, List.zipIdx_cons, List.mapM_cons, ih]
    rfl

theorem vertexLabels_of_get? {s : PropertyStore F} {name : String} {labels : List Nat}
    (h : s.get? name = some ⟨.vertex, .integer (labels.map Int.ofNat)⟩) :
    s.vertexLabels name labels.length = .ok labels := by
  have hlength : ofLength (F := F) labels.length (labels.map Int.ofNat) =
      .ok (labels.map Int.ofNat) := by
    rw [ofLength, if_pos (List.length_map _)]
  rw [vertexLabels, find_of_get? h]
  change (ofLength labels.length (labels.map Int.ofNat) >>= fun values =>
    values.zipIdx.mapM labelOf) = _
  rw [hlength]
  exact mapM_labelOf labels 0

end Potts.PropertyStore

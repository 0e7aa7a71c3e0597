import Potts.NullModel.Basic
import Potts.Proofs.Graph.Links
import Potts.Proofs.NullModel.Correlated

/-!
# Null models read links

A null model that is built for the same links and the same labels is the same. This is plain where
only numbers of neighbors are read. The correlated model counts every edge at the two classes that
it joins, one after the other, and the order in which it does so does not matter.
-/

namespace Potts.NullModel

open Checked

variable {F : Type} [Scalar F] {net net' : Network F}

namespace Correlated

variable {classOf : SortedMap Nat Nat compare}

theorem classOfVertex_sameLinks (h : net.SameLinks net') (classOf : SortedMap Nat Nat compare) :
    classOfVertex net' classOf = classOfVertex net classOf := by
  funext v
  rw [classOfVertex, classOfVertex, h.degreeAt_eq]

theorem countVertex_sameLinks (h : net.SameLinks net') (classOf : SortedMap Nat Nat compare) :
    countVertex net' classOf = countVertex net classOf := by
  funext counts held
  rw [countVertex, countVertex, classOfVertex_sameLinks h]

theorem modify_modify_of_ne {α : Type} (a : Array α) {i j : Nat} (hne : i ≠ j) (f g : α → α) :
    (a.modify i f).modify j g = (a.modify j g).modify i f := by
  refine Array.ext_getElem? fun k => ?_
  simp only [Array.getElem?_modify]
  by_cases hi : i = k
  · have hj : j ≠ k := fun hj => hne (hi.trans hj.symm)
    simp [hi, hj]
  · simp [hi]

variable {n : Nat} {ends : Array (Array F)}

theorem countEdge_sameLink (hends : Square n ends) {e e' : Edge F} (h : e.SameLink e') {c c' : Nat}
    (hsource : classOfVertex net classOf e.source = .ok c) (hc : c < n)
    (htarget : classOfVertex net classOf e.target = .ok c') (hc' : c' < n) :
    countEdge net classOf ends e' = countEdge net classOf ends e := by
  rcases h.eq_or_eq_reverse with rfl | rfl
  · rfl
  · have hreverse : countEdge net classOf ends e.reverse =
        .ok (increment (increment ends c' c) c c') :=
      hends.countEdge_eq_ok htarget hc' hsource hc
    rw [hreverse, hends.countEdge_eq_ok hsource hc htarget hc']
    by_cases hne : c = c'
    · rw [hne]
    · exact congrArg Except.ok (modify_modify_of_ne ends (Ne.symm hne) _ _)

theorem foldlM_countEdge_sameLinks {edges edges' : List (Edge F)}
    (h : List.Forall₂ Edge.SameLink edges edges')
    (hclass : ∀ e ∈ edges, Yields (classOfVertex net classOf e.source) (· < n) ∧
      Yields (classOfVertex net classOf e.target) (· < n)) (hends : Square n ends) :
    edges'.foldlM (countEdge net classOf) ends = edges.foldlM (countEdge net classOf) ends := by
  induction h generalizing ends with
  | nil => rfl
  | @cons e e' edges edges' hlink _ ih =>
    obtain ⟨⟨c, hsource, hc⟩, c', htarget, hc'⟩ := hclass e List.mem_cons_self
    rw [List.foldlM_cons, List.foldlM_cons,
      countEdge_sameLink hends hlink hsource hc htarget hc',
      hends.countEdge_eq_ok hsource hc htarget hc', ok_bind, ok_bind]
    exact ih (fun e he => hclass e (List.mem_cons_of_mem _ he))
      ((hends.increment c c').increment c' c)

theorem ofLabels_sameLinks (h : net.SameLinks net') (labels : List Nat) :
    ofLabels net' labels = ofLabels net labels := by
  have hcount : countEdge net' (classNumbers net.degreeClasses) =
      countEdge net (classNumbers net.degreeClasses) := by
    funext ends e
    rw [countEdge, countEdge, classOfVertex_sameLinks h]
  have hends : net'.edges.foldlM (countEdge net (classNumbers net.degreeClasses))
      (Array.replicate net.degreeClasses.length
        (Array.replicate net.degreeClasses.length Scalar.zero)) = countEnds net :=
    foldlM_countEdge_sameLinks h.edges (fun e he => ⟨yields_classOfVertex_lt (net.source_lt he),
      yields_classOfVertex_lt (net.target_lt he)⟩) (square_replicate _ _)
  rw [ofLabels, ofLabels, h.degreeClasses_eq]
  simp only [ofClasses, countVertex_sameLinks h, hcount, List.size_toArray, hends]
  rfl

end Correlated

theorem ofLabels_sameLinks (h : net.SameLinks net') (kind : Kind) (labels : List Nat) :
    ofLabels kind net' labels = ofLabels kind net labels := by
  cases kind with
  | independent =>
    simp only [ofLabels, Independent.ofLabels, h.size_eq, h.totalDegree_eq]
  | uncorrelated =>
    have hadd : Uncorrelated.addVertex net' = Uncorrelated.addVertex net := by
      funext sums held
      rw [Uncorrelated.addVertex, Uncorrelated.addVertex, h.degreeAt_eq]
    simp only [ofLabels, Uncorrelated.ofLabels, hadd, h.totalDegree_eq]
  | correlated =>
    rw [ofLabels, ofLabels, Correlated.ofLabels_sameLinks h]

end Potts.NullModel

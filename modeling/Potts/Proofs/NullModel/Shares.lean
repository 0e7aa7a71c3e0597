import Mathlib.Algebra.BigOperators.Field
import Mathlib.Algebra.BigOperators.Fin
import Potts.Proofs.Graph.Mixing
import Potts.Proofs.NullModel.Expectation

/-!
# The shares of edge ends

In exact arithmetic the matrix that the correlated null model is built from counts the edge ends of
the network by the degrees that they join (`countEnds_eq`), and its rows over their sums are the
shares of the edge ends (`map_shares`). With them the expectations of a model that follows its
labels have the closed form that defines the model (`Follows.expected_eq`).
-/

namespace Potts

variable {K : Type} [ExactScalar K]

/-! ## Shares of a network -/

namespace Network

variable (net : Network K) {degree degree' : Nat}

/-- The share of the edge ends at one degree that have another degree at the other end. -/
def share (degree degree' : Nat) : K :=
  (net.mixing degree degree' : K) / ∑ other ∈ net.degreeSet, (net.mixing degree other : K)

theorem share_eq (degree degree' : Nat) :
    net.share degree degree' =
      (net.mixing degree degree' : K) / (degree * net.classSize degree : Nat) := by
  rw [share, ← net.sum_mixing, Nat.cast_sum]

theorem share_nonneg (degree degree' : Nat) : 0 ≤ net.share degree degree' := by
  rw [share_eq]
  exact div_nonneg (Nat.cast_nonneg _) (Nat.cast_nonneg _)

theorem sum_share (hmem : degree ∈ net.degreeSet) (hpos : 0 < degree) :
    ∑ degree' ∈ net.degreeSet, net.share degree degree' = 1 := by
  have hne : ((degree * net.classSize degree : Nat) : K) ≠ 0 :=
    Nat.cast_ne_zero.2 (Nat.mul_pos hpos (net.classSize_pos hmem)).ne'
  simp only [share_eq]
  rw [← Finset.sum_div, ← Nat.cast_sum, net.sum_mixing, div_self hne]

theorem mul_share (hmem : degree' ∈ net.degreeSet) :
    ((degree * net.classSize degree : Nat) : K) * net.share degree degree' =
      net.mixing degree degree' := by
  rw [share_eq]
  refine mul_div_cancel_of_imp' fun hzero => ?_
  -- without edge ends at a degree, none of them is counted
  have hle : net.mixing degree degree' ≤ degree * net.classSize degree := by
    rw [← net.sum_mixing]
    exact Finset.single_le_sum (f := net.mixing degree) (fun _ _ => Nat.zero_le _) hmem
  rw [Nat.cast_eq_zero] at hzero ⊢
  omega

theorem classSize_eq_sum {F : Type} [Scalar F] (net : Network F) (degree : Nat) :
    net.classSize degree =
      ∑ v ∈ Finset.range net.size, NullModel.Correlated.inClass net degree v := by
  rw [classSize, Finset.card_filter]
  rfl

end Network

namespace NullModel.Correlated

open Checked Potts.Partition

variable {net : Network K} {m : Correlated K} {labels : List Nat} {c c' degree degree' : Nat}

/-! ## Matrices over the degree classes -/

/-- The matrix whose entry for two degree classes is given by their degrees. -/
def gridOf (net : Network K) (f : Nat → Nat → K) : Array (Array K) :=
  (net.degreeClasses.map fun degree => (net.degreeClasses.map (f degree)).toArray).toArray

theorem getElem?_gridOf (net : Network K) (f : Nat → Nat → K) (c : Nat) :
    (gridOf net f)[c]? =
      net.degreeClasses[c]?.map fun degree => (net.degreeClasses.map (f degree)).toArray := by
  rw [gridOf, List.getElem?_toArray, List.getElem?_map]

theorem square_gridOf (net : Network K) (f : Nat → Nat → K) :
    Square net.degreeClasses.length (gridOf net f) where
  size_eq := by simp [gridOf]
  size_row row hrow := by
    obtain ⟨degree, -, rfl⟩ := List.mem_map.1 (List.mem_toArray.1 hrow)
    simp

theorem gridOf_congr {f g : Nat → Nat → K} (h : ∀ a b, f a b = g a b) :
    gridOf net f = gridOf net g := by
  rw [funext₂ h]

theorem increment_gridOf (f : Nat → Nat → K) (hc : net.degreeClasses[c]? = some degree)
    (hc' : net.degreeClasses[c']? = some degree') :
    increment (gridOf net f) c c' =
      gridOf net fun a b => f a b + if degree = a ∧ degree' = b then 1 else 0 := by
  -- Every degree has one class.
  have hclass : ∀ {i j a b : Nat}, net.degreeClasses[i]? = some a →
      net.degreeClasses[j]? = some b → (i = j ↔ a = b) := by
    intro i j a b hi hj
    constructor
    · rintro rfl
      exact Option.some.inj (hi.symm.trans hj)
    · rintro rfl
      exact class_unique hi hj
  refine Array.ext_getElem? fun i => ?_
  rw [increment, Array.getElem?_modify, getElem?_gridOf, getElem?_gridOf]
  cases hi : net.degreeClasses[i]? with
  | none => simp
  | some a =>
    rw [Option.map_some, Option.map_some]
    by_cases ha : degree = a
    · rw [if_pos ((hclass hc hi).2 ha)]
      refine congrArg some (Array.ext_getElem? fun j => ?_)
      rw [Array.getElem?_modify, List.getElem?_toArray, List.getElem?_toArray, List.getElem?_map,
        List.getElem?_map]
      cases hj : net.degreeClasses[j]? with
      | none => simp
      | some b =>
        by_cases hb : degree' = b
        · rw [if_pos ((hclass hc' hj).2 hb)]
          simp [ha, hb]
        · rw [if_neg fun h => hb ((hclass hc' hj).1 h)]
          simp [hb]
    · rw [if_neg fun h => ha ((hclass hc hi).1 h)]
      simp [ha]

theorem gridOf_zero (net : Network K) :
    gridOf net (fun _ _ => 0) = Array.replicate net.degreeClasses.length
      (Array.replicate net.degreeClasses.length Scalar.zero) := by
  rw [gridOf, Scalar.zero_eq, List.map_const', List.map_const', List.toArray_replicate,
    List.toArray_replicate]

/-! ## Counting the ends -/

/-- The edge ends of a list of edges, counted by the degrees that they join. -/
def endsGrid (net : Network K) (edges : List (Edge K)) : Array (Array K) :=
  gridOf net fun a b => ((edges.map (net.endsOf a b)).sum : Nat)

theorem endsGrid_concat (net : Network K) (edges : List (Edge K)) (e : Edge K) :
    endsGrid net (edges ++ [e]) = gridOf net fun a b =>
      ((edges.map (net.endsOf a b)).sum : Nat) + (net.endsOf a b e : Nat) := by
  refine gridOf_congr fun a b => ?_
  rw [List.map_append, List.sum_append, List.map_singleton, List.sum_singleton, Nat.cast_add]

theorem countEnds_eq (net : Network K) :
    countEnds net = .ok (endsGrid net net.edges) := by
  have hyields : Yields (countEnds net) (· = endsGrid net net.edges) := by
    rw [countEnds, ← gridOf_zero]
    refine Yields.foldlM (fun done ends => ends = endsGrid net done)
      (gridOf_congr fun _ _ => Nat.cast_zero.symm) fun done e rest ends hdone hends => ?_
    have he : e ∈ net.edges := by rw [hdone]; simp
    refine (yields_countEdge (hends ▸ square_gridOf net _) he).mono ?_
    rintro ends' ⟨c, c', hc, hc', rfl⟩
    rw [hends, endsGrid, increment_gridOf _ hc hc', increment_gridOf _ hc' hc, endsGrid_concat]
    refine gridOf_congr fun a b => ?_
    rw [Network.endsOf, Nat.cast_add, Nat.cast_ite, Nat.cast_ite, Nat.cast_one, Nat.cast_zero,
      add_assoc]
  obtain ⟨ends, hends, rfl⟩ := hyields
  exact hends

/-! ## Shares of the ends -/

theorem shares_eq {row : List K} (h : ∀ x ∈ row, 0 ≤ x) :
    shares row.toArray = (row.map (· / row.sum)).toArray := by
  rw [shares]
  simp only [Scalar.sum_eq, Scalar.zero_eq, List.map_toArray]
  split
  · rfl
  · rename_i hpos
    refine congrArg List.toArray ?_
    have hsum : row.sum = 0 := le_antisymm (not_lt.1 hpos) (List.sum_nonneg h)
    refine ((List.map_congr_left fun x hx => ?_).trans (List.map_id row)).symm
    rw [List.all_zero_of_le_zero_le_of_sum_eq_zero h hsum hx, zero_div, id]

theorem map_shares (net : Network K) :
    (endsGrid net net.edges).map shares = gridOf net net.share := by
  rw [endsGrid, gridOf, gridOf, List.map_toArray, List.map_map]
  refine congrArg List.toArray (List.map_congr_left fun degree _ => ?_)
  rw [Function.comp_apply, shares_eq, List.map_map, net.sum_map_degreeClasses]
  · rfl
  · intro x hx
    obtain ⟨degree', -, rfl⟩ := List.mem_map.1 hx
    exact Nat.cast_nonneg _

theorem filter_zipIdx {α : Type} {l : List α} {i : Nat} {a : α} (h : l[i]? = some a) :
    l.zipIdx.filter (·.2 == i) = [(a, i)] := by
  induction l using List.reverseRecOn with
  | nil => simp at h
  | append_singleton l b ih =>
    rw [List.zipIdx_append, List.filter_append, List.zipIdx_singleton, Nat.zero_add]
    rw [List.getElem?_append] at h
    split at h
    · rename_i hlt
      rw [ih h]
      simp [hlt.ne']
    · rename_i hle
      obtain ⟨hi, rfl⟩ := List.getElem?_eq_some_iff.1 h
      have hlast : i = l.length := by
        rw [List.length_singleton] at hi
        omega
      have hnone : l.zipIdx.filter (·.2 == i) = [] := by
        refine List.filter_eq_nil_iff.2 fun x hx => ?_
        have hlt := (List.mem_zipIdx' hx).1
        simp only [beq_iff_eq]
        omega
      rw [hnone]
      simp [hlast]

theorem filter_filterMap_zipIdx {α β : Type} {f : α × Nat → Option (Nat × β)}
    (hf : ∀ x e, f x = some e → e.1 = x.2) {l : List α} {i : Nat} {a : α}
    (h : l[i]? = some a) :
    (l.zipIdx.filterMap f).filter (·.1 == i) = (f (a, i)).toList := by
  have hnumber : (fun x => (f x).filter (·.1 == i)) = fun x => if x.2 == i then f x else none := by
    funext x
    cases hx : f x with
    | none => simp
    | some e => simp [Option.filter, hf x e hx]
  rw [List.filter_filterMap, hnumber, ← List.filterMap_filter, filter_zipIdx h]
  cases hfa : f (a, i) <;> simp [hfa]

theorem filter_columnOf {matrix : Array (Array K)} {row : Array K} {p : K}
    (hrow : matrix[c]? = some row) (hp : row[c']? = some p) :
    (columnOf matrix c').filter (·.1 == c) = if 0 < p then [(c, p)] else [] := by
  rw [columnOf, filter_filterMap_zipIdx _ (by rwa [Array.getElem?_toList])]
  · rw [hp, Scalar.zero_eq, Option.bind_some]
    by_cases hpos : 0 < p <;> simp [hpos]
  · intro x e he
    obtain ⟨p, -, he⟩ := Option.bind_eq_some_iff.1 he
    split at he
    · cases he
      rfl
    · cases he

/-! ## Expectations in closed form -/

theorem Follows.pull_eq (h : Follows net m labels) (hc : net.degreeClasses[c]? = some degree)
    (hc' : net.degreeClasses[c']? = some degree') :
    pull m c' c = (degree : K) * net.share degree degree' / (net.classSize degree' : K) := by
  obtain ⟨hlt, -⟩ := List.getElem?_eq_some_iff.1 hc'
  obtain ⟨ends, hends, -, hcolumns⟩ := h.columns
  rw [countEnds_eq] at hends
  cases hends
  have hcolumn : m.columns[c']? = some (columnOf (gridOf net net.share) c') := by
    rw [hcolumns, columnsOf, map_shares, List.getElem?_toArray, List.getElem?_map,
      List.getElem?_range hlt, Option.map_some]
  have hsize : m.classSize[c']? = some (net.classSize degree') := by
    rw [h.counts.classSize_eq c' degree' hc', h.length_eq, net.classSize_eq_sum]
  have hrow : (gridOf net net.share)[c]? =
      some (net.degreeClasses.map (net.share degree)).toArray := by
    rw [getElem?_gridOf, hc, Option.map_some]
  have hp : (net.degreeClasses.map (net.share degree)).toArray[c']? =
      some (net.share degree degree') := by
    rw [List.getElem?_toArray, List.getElem?_map, hc', Option.map_some]
  rw [pull, hcolumn, hsize, Option.getD_some, Option.getD_some, partsOf, filter_columnOf hrow hp,
    h.degrees_eq, List.getElem?_toArray, hc, Option.getD_some]
  split
  · rw [List.map_singleton, List.sum_singleton]
  · rename_i hpos
    have hzero : net.share degree degree' = 0 :=
      le_antisymm (not_lt.1 hpos) (net.share_nonneg degree degree')
    rw [hzero, mul_zero, zero_div]
    rfl

/-- A vertex of degree `k` expects `Σ k P(k, k') N(k', s) / N(k')` in label `s`, summed over the
degrees that occur. -/
theorem Follows.expected_eq (h : Follows net m labels) (hsummed : m.Summed) {v : Nat}
    (hv : v < net.size) (label : Nat) :
    m.expected (net.degree v) label = ∑ degree' ∈ net.degreeSet,
      net.degree v * net.share (net.degree v) degree' *
        (heldSum (inClass net degree') labels label : K) / net.classSize degree' := by
  obtain ⟨c, hc, hclass⟩ := net.exists_class hv
  rw [← h.classOf_eq] at hclass
  obtain ⟨row, hrow⟩ := exists_row_of_class hclass
  have hmean : m.expected (net.degree v) label = mean m c label := by
    rw [expected_of_class hclass hrow]
    exact hsummed.value_eq c row hrow label
  rw [hmean, mean, h.columns.size_eq, ← net.sum_map_degreeClasses, ← Fin.sum_univ_fun_getElem,
    Finset.sum_range]
  refine Finset.sum_congr rfl fun i _ => ?_
  have hi : net.degreeClasses[(i : Nat)]? = some net.degreeClasses[i] :=
    List.getElem?_eq_getElem i.2
  obtain ⟨counts, hcounts, hamount⟩ := h.counts.labelCounts_eq i _ hi
  rw [h.pull_eq hc hi, hcounts, Option.getD_some, hamount]
  exact div_mul_eq_mul_div _ _ _

end NullModel.Correlated

end Potts

import Potts.Proofs.NullModel.Rebuild
import Potts.Proofs.NullModel.Shares

/-!
# Null models never divide by zero

A field gives a quotient by zero a value, so a division by zero would go unnoticed in exact
arithmetic. `Scalar.dividing` makes it show: it leaves all of exact arithmetic as it is, except that
a number over zero is whatever one likes. Null models are built, follow moves and answer the same
under all these readings, so no quotient by zero has a part in what they do.

A share is taken of a row with a positive sum only, and all other divisors are sizes of degree
classes, which have a vertex each.
-/

namespace Potts

variable {K : Type} [ExactScalar K]

/-- Exact arithmetic with the quotients by zero given by `atZero`. -/
@[reducible]
def Scalar.dividing (atZero : K → K) : Scalar K :=
  { (ExactScalar.toScalar : Scalar K) with
    toDiv := ⟨fun x y => if y = 0 then atZero x else x / y⟩ }

/-- A network, read in exact arithmetic with other quotients by zero. -/
def Network.dividing (net : Network K) (atZero : K → K) : @Network K (Scalar.dividing atZero) :=
  @Network.mk K (Scalar.dividing atZero) net.size net.edges net.edges_valid net.adjacency
    net.adjacency_eq net.totalWeight net.totalWeight_eq

namespace NullModel

open Checked

variable (atZero : K → K) {net : Network K} {labels : List Nat}

/-! ## The correlated null model -/

namespace Correlated

variable {m : Correlated K}

theorem shares_dividing : @shares K (Scalar.dividing atZero) = shares := by
  funext row
  by_cases hpos : Scalar.zero < (Scalar.sum row.toList : K)
  · have hne : (Scalar.sum row.toList : K) ≠ 0 := by
      rw [Scalar.zero_eq] at hpos
      exact hpos.ne'
    have hrow : @shares K (Scalar.dividing atZero) row = row.map fun p =>
        if Scalar.sum row.toList = 0 then atZero p else p / Scalar.sum row.toList := if_pos hpos
    rw [hrow, shares]
    simp only [hpos, if_true, hne, if_false]
  · exact (if_neg hpos).trans (if_neg hpos).symm

theorem addParts_dividing {size : Nat} (hsize : size ≠ 0) (degree : Nat) (p : K) (counts : Tally) :
    @addParts K (Scalar.dividing atZero) degree p size counts = addParts degree p size counts := by
  funext row
  refine List.foldl_ext _ _ _ fun row held _ => congrArg (raise row held.1) ?_
  exact if_neg (Nat.cast_ne_zero.2 hsize)

theorem expectationRows_dividing {degrees classSize : Array Nat}
    {columns : Array (List (Nat × K))} {labelCounts : Array Tally}
    (hsizes : ∀ size ∈ classSize, size ≠ 0) :
    @expectationRows K (Scalar.dividing atZero) degrees classSize columns labelCounts =
      expectationRows degrees classSize columns labelCounts := by
  refine congrArg (fun step => List.foldlM step _ _) ?_
  funext rows source
  refine bind_congr_ok fun size hsize => bind_congr fun counts => ?_
  have hne := hsizes size (Array.mem_of_getElem? (expect_eq_ok hsize))
  refine congrArg (fun step => List.foldlM step _ _) ?_
  funext rows entry
  refine bind_congr fun degree => bind_congr fun row => ?_
  exact congrArg (fun row => pure (rows.setIfInBounds entry.1 row))
    (congrFun (addParts_dividing atZero hne degree entry.2 counts) row)

theorem movePart_dividing {size : Nat} (hsize : size ≠ 0) (source target : Nat) :
    @movePart K (Scalar.dividing atZero) m size source target = movePart m size source target := by
  funext rows entry
  refine bind_congr fun degree => bind_congr fun row => ?_
  refine congrArg (fun delta => pure (rows.setIfInBounds entry.1
    (raise (lower row source delta) target delta))) ?_
  exact if_neg (Nat.cast_ne_zero.2 hsize)

theorem CountsClasses.size_ne_zero {classSize : Array Nat} {labelCounts : Array Tally}
    (h : CountsClasses net classSize labelCounts labels) (hlabels : labels.length = net.size)
    {size : Nat} (hsize : size ∈ classSize) : size ≠ 0 := by
  obtain ⟨c, hlt, rfl⟩ := Array.mem_iff_getElem.1 hsize
  have hclass : c < net.degreeClasses.length := h.size_classSize ▸ hlt
  have hc : net.degreeClasses[c]? = some net.degreeClasses[c] := List.getElem?_eq_getElem hclass
  have hget := h.classSize_eq c _ hc
  rw [Array.getElem?_eq_getElem hlt, hlabels, ← net.classSize_eq_sum] at hget
  rw [Option.some.inj hget]
  exact (net.classSize_pos (net.mem_degreeSet_of_getElem? hc)).ne'

theorem ofLabels_dividing (hlabels : labels.length = net.size) :
    @ofLabels K (Scalar.dividing atZero) (net.dividing atZero) labels = ofLabels net labels := by
  obtain ⟨⟨sizes, tallies⟩, hcounts, hclasses⟩ := @yields_countVertex K _ net labels hlabels.le
  have hsizes : ∀ size ∈ sizes, size ≠ 0 := fun size hsize => hclasses.size_ne_zero hlabels hsize
  refine bind_congr_ok fun counts hcounts' => ?_
  rw [show counts = (sizes, tallies) from Except.ok.inj (hcounts'.symm.trans hcounts)]
  refine bind_congr fun ends => ?_
  rw [shares_dividing]
  refine bind_congr fun columns => ?_
  exact congrArg (· >>= _) (expectationRows_dividing atZero hsizes)

theorem Follows.update_dividing (h : Follows net m labels) (degree source target : Nat) :
    @update K (Scalar.dividing atZero) m degree source target = m.update degree source target := by
  cases hclass : m.classOf.get? degree with
  | none => simp only [update, hclass]
  | some c =>
    simp only [update, hclass]
    refine bind_congr_ok fun size hfetch => ?_
    have hsize : size ∈ m.classSize := Array.mem_of_getElem? (expect_eq_ok hfetch)
    rw [movePart_dividing atZero (h.counts.size_ne_zero h.length_eq hsize)]

end Correlated

/-! ## All kinds -/

theorem ofLabels_dividing (kind : Kind) (hlabels : labels.length = net.size) :
    @ofLabels K (Scalar.dividing atZero) kind (net.dividing atZero) labels =
      ofLabels kind net labels := by
  cases kind with
  | independent =>
    refine congrArg (fun density => Except.ok (independent ⟨density, .ofLabels labels⟩)) ?_
    by_cases hpos : Scalar.zero < (net.size : K)
    · have hne : (net.size : K) * net.size ≠ 0 := by
        rw [Scalar.zero_eq] at hpos
        exact (mul_pos hpos hpos).ne'
      exact (if_pos hpos).trans ((if_neg hne).trans (if_pos hpos).symm)
    · exact (if_neg hpos).trans (if_neg hpos).symm
  | uncorrelated => rfl
  | correlated => exact congrArg (correlated <$> ·) (Correlated.ofLabels_dividing atZero hlabels)

theorem Follows.update_dividing {m : NullModel K} (h : Follows net m labels)
    (degree source target : Nat) :
    @update K (Scalar.dividing atZero) m degree source target = m.update degree source target := by
  cases m with
  | independent m => rfl
  | uncorrelated m => rfl
  | correlated m =>
    have h' : Correlated.Follows net m labels := h
    exact congrArg (correlated <$> ·) (h'.update_dividing atZero degree source target)

/-- Asking a model what it expects divides by no zero either. -/
theorem expected_dividing (m : NullModel K) (degree label : Nat) :
    @expected K (Scalar.dividing atZero) m degree label = m.expected degree label := by
  cases m with
  | independent m => rfl
  | uncorrelated m =>
    by_cases htotal : m.total = 0
    · exact (if_pos htotal).trans (if_pos htotal).symm
    · have hne : (m.total : K) ≠ 0 := Nat.cast_ne_zero.2 htotal
      exact (if_neg htotal).trans ((if_neg hne).trans (if_neg htotal).symm)
  | correlated m => rfl

theorem afterMoves_dividing (kind : Kind) (hlabels : labels.length = net.size)
    {moves : List (Nat × Nat)} (hmoves : ∀ move ∈ moves, move.1 < net.size) :
    @afterMoves K (Scalar.dividing atZero) kind (net.dividing atZero) labels moves =
      afterMoves kind net labels moves := by
  have hpersists := persists_follows kind net
  refine (congrArg (· >>= _) (ofLabels_dividing atZero kind hlabels)).trans ?_
  refine bind_congr_ok fun m hm => ?_
  refine congrArg (fun last : Checked K (NullModel K × List Nat) => Prod.fst <$> last) ?_
  refine foldlM_congr_ok (Q := fun current => current.2.length = net.size ∧
    current.1.kind = kind ∧ Follows net current.1 current.2) ⟨hlabels, ?_⟩ ?_ ?_
  · exact (hpersists.ofLabels labels hlabels).of_eq_ok hm
  · rintro mv - ⟨m, labels⟩ ⟨-, -, hfollows⟩
    refine bind_congr fun source => ?_
    exact congrArg (· >>= _) (hfollows.update_dividing atZero _ source mv.2)
  · rintro mv hmv ⟨m, labels⟩ ⟨m', labels'⟩ ⟨hlength, hm⟩ hmove
    obtain ⟨rfl, hm'⟩ := (hpersists.yields_move hlength hm (hmoves mv hmv)).of_eq_ok hmove
    exact ⟨by rw [List.length_set, hlength], hm'⟩

end NullModel

end Potts

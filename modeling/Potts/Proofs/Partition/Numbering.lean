import Potts.Annealing.Run
import Potts.Proofs.Partition.Canonical

/-!
# Canonical labels are a canonical form

The canonical labels of a list are a list of the same partition in which every number comes after
all smaller ones. There is one such list only (`SamePartition.eq_of_inOrder`), as a label that
differs from the labels before it can have no number but the least that has not appeared. So
renumbering twice is renumbering once, and two lists have the same canonical labels exactly when
they describe the same partition.
-/

namespace Potts.Partition

variable {labels labels' labels'' : List Nat} {seen : SortedMap Nat Nat compare}

/-! ## Partitions of lists -/

theorem SamePartition.symm (h : SamePartition labels labels') : SamePartition labels' labels where
  length_eq := h.length_eq.symm
  getElem?_eq_iff u hu v hv := by
    rw [h.length_eq] at hu hv
    exact (h.getElem?_eq_iff u hu v hv).symm

theorem SamePartition.trans (h : SamePartition labels labels')
    (h' : SamePartition labels' labels'') : SamePartition labels labels'' where
  length_eq := h'.length_eq.trans h.length_eq
  getElem?_eq_iff u hu v hv := by
    have hiff := h.getElem?_eq_iff u hu v hv
    rw [← h.length_eq] at hu hv
    exact (h'.getElem?_eq_iff u hu v hv).trans hiff

theorem card_cells (labels : List Nat) : (cells labels).card = labels.toFinset.card := by
  rw [← image_cellOf, Finset.card_image_of_injOn (injOn_cellOf labels)]

/-! ## Numbers in order -/

/-- Every number comes after all smaller ones. -/
def InOrder (numbers : List Nat) : Prop :=
  ∀ v number : Nat, numbers[v]? = some number → ∀ smaller < number, ∃ u < v,
    numbers[u]? = some smaller

theorem Numbers.inOrder_canonicalFrom (h : Numbers seen) (labels : List Nat) :
    ∀ v number : Nat, (canonicalFrom seen labels)[v]? = some number → ∀ smaller < number,
      smaller < seen.size ∨ ∃ u < v, (canonicalFrom seen labels)[u]? = some smaller := by
  induction labels generalizing seen with
  | nil =>
    intro v number hv
    cases hv
  | cons label rest ih =>
    intro v number hv smaller hsmaller
    rw [canonicalFrom] at hv ⊢
    cases hlabel : seen.get? label with
    | some first =>
      rw [hlabel] at hv
      cases v with
      | zero =>
        cases hv
        exact Or.inl (hsmaller.trans (h.lt_size label number hlabel))
      | succ v =>
        rcases ih h v number hv smaller hsmaller with hlt | ⟨u, hu, hget⟩
        · exact Or.inl hlt
        · exact Or.inr ⟨u + 1, Nat.succ_lt_succ hu, hget⟩
    | none =>
      rw [hlabel] at hv
      cases v with
      | zero =>
        cases hv
        exact Or.inl hsmaller
      | succ v =>
        have hrest := ih (h.insert hlabel) v number hv smaller hsmaller
        rw [size_insert hlabel] at hrest
        rcases hrest with hlt | ⟨u, hu, hget⟩
        · -- the number that is new here is the size of the map
          rcases Nat.lt_succ_iff_lt_or_eq.1 hlt with hlt | rfl
          · exact Or.inl hlt
          · exact Or.inr ⟨0, Nat.succ_pos v, rfl⟩
        · exact Or.inr ⟨u + 1, Nat.succ_lt_succ hu, hget⟩

theorem inOrder_canonical (labels : List Nat) : InOrder (canonical labels) := by
  intro v number hv smaller hsmaller
  rcases numbers_empty.inOrder_canonicalFrom labels v number hv smaller hsmaller with hlt | hget
  · exact absurd hlt (Nat.not_lt_zero smaller)
  · exact hget

theorem idxOf_le_of_getElem? {numbers : List Nat} {u number : Nat}
    (h : numbers[u]? = some number) : numbers.idxOf number ≤ u := by
  by_contra hlt
  obtain ⟨hu, rfl⟩ := List.getElem?_eq_some_iff.1 h
  have hne := List.not_of_lt_findIdx (Nat.lt_of_not_le hlt)
  simp at hne

theorem InOrder.mem_iff {numbers : List Nat} (h : InOrder numbers) {number : Nat} :
    number ∈ numbers ↔ number < numbers.toFinset.card := by
  have hdown : ∀ larger ∈ numbers, ∀ smaller ≤ larger, smaller ∈ numbers := by
    intro larger hlarger smaller hle
    obtain ⟨v, hv⟩ := List.mem_iff_getElem?.1 hlarger
    rcases Nat.lt_or_eq_of_le hle with hlt | rfl
    · obtain ⟨u, -, hu⟩ := h v larger hv smaller hlt
      exact List.mem_of_getElem? hu
    · exact hlarger
  constructor
  · intro hnumber
    have hsubset : Finset.range (number + 1) ⊆ numbers.toFinset := fun smaller hsmaller =>
      List.mem_toFinset.2 (hdown number hnumber smaller (Finset.mem_range_succ_iff.1 hsmaller))
    have hcard := Finset.card_le_card hsubset
    rw [Finset.card_range] at hcard
    exact hcard
  · intro hlt
    by_contra hnot
    have hsubset : numbers.toFinset ⊆ Finset.range number := by
      intro larger hlarger
      rw [List.mem_toFinset] at hlarger
      rw [Finset.mem_range]
      by_contra hle
      exact hnot (hdown larger hlarger number (Nat.le_of_not_lt hle))
    have hcard := Finset.card_le_card hsubset
    rw [Finset.card_range] at hcard
    omega

/-- Where numbers of the same partition agree so far, the next one is not larger than the other's
if it comes after all smaller ones. -/
theorem SamePartition.not_lt_of_inOrder (h : SamePartition labels labels') (h' : InOrder labels')
    {v number number' : Nat} (hv : labels[v]? = some number) (hv' : labels'[v]? = some number')
    (hbefore : ∀ u < v, labels'[u]? = labels[u]?) : ¬number < number' := by
  intro hlt
  obtain ⟨u, hu, hget⟩ := h' v number' hv' number hlt
  have hlength := (List.getElem?_eq_some_iff.1 hv).1
  -- the smaller number stands at `u` in both lists, so `u` and `v` share their label
  have hsame : labels[u]? = labels[v]? := by rw [← hbefore u hu, hget, hv]
  rw [← h.getElem?_eq_iff u (hu.trans hlength) v hlength, hget, hv'] at hsame
  cases hsame
  exact Nat.lt_irrefl _ hlt

theorem SamePartition.eq_of_inOrder (h : SamePartition labels labels') (hlabels : InOrder labels)
    (hlabels' : InOrder labels') : labels' = labels := by
  apply List.ext_getElem?
  intro v
  induction v using Nat.strong_induction_on with
  | h v ih =>
    by_cases hv : v < labels.length
    · have hv' : v < labels'.length := by
        rw [h.length_eq]
        exact hv
      have hget := List.getElem?_eq_getElem hv
      have hget' := List.getElem?_eq_getElem hv'
      have hle := h.not_lt_of_inOrder hlabels' hget hget' ih
      have hge := h.symm.not_lt_of_inOrder hlabels hget' hget fun u hu => (ih u hu).symm
      rw [hget, hget']
      exact congrArg some (by omega)
    · have hle := Nat.le_of_not_lt hv
      rw [List.getElem?_eq_none hle, List.getElem?_eq_none (by rwa [h.length_eq])]

/-! ## The canonical form -/

/-- Detection answers with the canonical labels of its run, and these are a canonical form of the
partition: there is one for each label, they describe the same partition, they are the numbers below
the count of the labels that are used, every number comes first after all smaller ones do,
renumbering them changes nothing, and two lists have the same canonical labels exactly when they
describe the same partition. -/
theorem canonical_form {F R : Type} [Scalar F] [SeededSource R] :
    (∀ (d : Detector F) (g : Multigraph),
      d.detect R g = (d.run R g none).map fun run => canonical run.labels) ∧
    ∀ labels : List Nat,
      (canonical labels).length = labels.length ∧
      (∀ u < labels.length, ∀ v < labels.length,
        (canonical labels)[u]? = (canonical labels)[v]? ↔ labels[u]? = labels[v]?) ∧
      (∀ number, number ∈ canonical labels ↔ number < labels.toFinset.card) ∧
      (∀ number ∈ canonical labels, ∀ smaller < number,
        (canonical labels).idxOf smaller < (canonical labels).idxOf number) ∧
      canonical (canonical labels) = canonical labels ∧
      ∀ labels', canonical labels' = canonical labels ↔ SamePartition labels labels' := by
  refine ⟨fun d g => ?_, fun labels => ?_⟩
  · rw [Detector.detect]
    cases d.run R g none <;> rfl
  · have hsame := samePartition_canonical labels
    have horder := inOrder_canonical labels
    refine ⟨hsame.length_eq, hsame.getElem?_eq_iff, fun number => ?_, ?_, ?_, fun labels' => ?_⟩
    · rw [horder.mem_iff, ← card_cells, hsame.cells_eq, card_cells]
    · intro number hnumber smaller hsmaller
      obtain ⟨u, hu, hget⟩ := horder _ number (List.getElem?_idxOf hnumber) smaller hsmaller
      exact lt_of_le_of_lt (idxOf_le_of_getElem? hget) hu
    · exact (samePartition_canonical (canonical labels)).eq_of_inOrder horder
        (inOrder_canonical (canonical labels))
    · have hsame' := samePartition_canonical labels'
      constructor
      · intro heq
        rw [heq] at hsame'
        exact hsame.trans hsame'.symm
      · intro hpartition
        have hcanonical := (hsame.symm.trans hpartition).trans hsame'
        exact hcanonical.eq_of_inOrder horder (inOrder_canonical labels')

example : canonical [7, 3, 7, 9, 3] = [0, 1, 0, 2, 1] := by decide

end Potts.Partition

import Potts.Partition.Canonical
import Potts.Proofs.Partition.Cells

/-!
# Canonical labels describe the same partition

While a list is renumbered, the map of the labels that have been seen gives different numbers to
different labels, and its size is a number that it has not given yet (`Numbers`). A label that has
been seen keeps its number to the end; so the canonical labels are what the last map says of the
labels, and as it gives no number twice, they describe the same partition.
-/

namespace Potts.Partition

variable {seen : SortedMap Nat Nat compare} {labels : List Nat} {label : Nat}

/-- A map that numbers labels, with numbers below its size and different ones for different
labels. -/
structure Numbers (seen : SortedMap Nat Nat compare) : Prop where
  lt_size : ∀ label number, seen.get? label = some number → number < seen.size
  injective : ∀ label label' number, seen.get? label = some number →
    seen.get? label' = some number → label = label'

theorem numbers_empty : Numbers .empty :=
  ⟨fun label number h => by simp at h, fun label label' number h => by simp at h⟩

theorem size_insert (h : seen.get? label = none) (number : Nat) :
    (seen.insert label number).size = seen.size + 1 := by
  have hseen : ∀ other, seen.contains other = true ↔ other ∈ seen.keys.toFinset := fun other => by
    rw [List.mem_toFinset, SortedMap.mem_keys]
  have hinsert : ∀ other, (seen.insert label number).contains other = true ↔
      other ∈ insert label seen.keys.toFinset := by
    intro other
    rw [Finset.mem_insert, ← hseen, SortedMap.contains, SortedMap.get?_insert_label,
      SortedMap.contains]
    by_cases hother : other = label <;> simp [hother]
  have hfresh : label ∉ seen.keys.toFinset := by
    rw [← hseen, SortedMap.contains, h]
    exact Bool.false_ne_true
  rw [Tally.size_eq_card hinsert, Finset.card_insert_of_notMem hfresh, Tally.size_eq_card hseen]

theorem Numbers.insert (h : Numbers seen) (hnone : seen.get? label = none) :
    Numbers (seen.insert label seen.size) where
  lt_size other number hother := by
    rw [size_insert hnone]
    rw [SortedMap.get?_insert_label] at hother
    split at hother
    · cases hother
      exact Nat.lt_succ_self _
    · exact Nat.lt_succ_of_lt (h.lt_size other number hother)
  injective first second number hfirst hsecond := by
    rw [SortedMap.get?_insert_label] at hfirst hsecond
    split at hfirst <;> split at hsecond
    · rename_i hlabel hlabel'
      rw [hlabel, hlabel']
    · cases hfirst
      exact absurd (h.lt_size second _ hsecond) (Nat.lt_irrefl _)
    · cases hsecond
      exact absurd (h.lt_size first _ hfirst) (Nat.lt_irrefl _)
    · exact h.injective first second number hfirst hsecond

/-- The canonical labels are read from a map that numbers labels and goes on from the map of those
that have been seen. -/
theorem Numbers.exists_canonicalFrom (h : Numbers seen) (labels : List Nat) :
    ∃ last, Numbers last ∧
      (∀ label number, seen.get? label = some number → last.get? label = some number) ∧
      (canonicalFrom seen labels).map some = labels.map last.get? := by
  induction labels generalizing seen with
  | nil => exact ⟨seen, h, fun _ _ => id, rfl⟩
  | cons label rest ih =>
    rw [canonicalFrom]
    cases hlabel : seen.get? label with
    | some number =>
      obtain ⟨last, hlast, hkeeps, hmap⟩ := ih h
      refine ⟨last, hlast, hkeeps, ?_⟩
      rw [List.map_cons, List.map_cons, hmap, hkeeps label number hlabel]
    | none =>
      obtain ⟨last, hlast, hkeeps, hmap⟩ := ih (h.insert hlabel)
      refine ⟨last, hlast, fun other number hother => hkeeps other number ?_, ?_⟩
      · have hne : other ≠ label := by
          rintro rfl
          rw [hlabel] at hother
          cases hother
        rw [SortedMap.get?_insert_label, if_neg hne, hother]
      · have hnew : last.get? label = some seen.size :=
          hkeeps label seen.size (by rw [SortedMap.get?_insert_label, if_pos rfl])
        rw [List.map_cons, List.map_cons, hmap, hnew]

theorem samePartition_canonical (labels : List Nat) : SamePartition labels (canonical labels) := by
  obtain ⟨last, hlast, -, hmap⟩ := numbers_empty.exists_canonicalFrom labels
  rw [← canonical] at hmap
  have hlength : (canonical labels).length = labels.length := by
    simpa using congrArg List.length hmap
  have hread : ∀ u < labels.length, ∃ label number, labels[u]? = some label ∧
      (canonical labels)[u]? = some number ∧ last.get? label = some number := by
    intro u hu
    have hlabel := List.getElem?_eq_getElem hu
    have hnumber := List.getElem?_eq_getElem (hlength.symm ▸ hu : u < (canonical labels).length)
    have hentry := congrArg (·[u]?) hmap
    simp only [List.getElem?_map, hlabel, hnumber, Option.map_some] at hentry
    exact ⟨_, _, hlabel, hnumber, (Option.some.inj hentry).symm⟩
  refine ⟨hlength, fun u hu v hv => ?_⟩
  obtain ⟨label, number, hlabel, hnumber, hlook⟩ := hread u hu
  obtain ⟨label', number', hlabel', hnumber', hlook'⟩ := hread v hv
  rw [hlabel, hlabel', hnumber, hnumber', Option.some.injEq, Option.some.injEq]
  constructor
  · rintro rfl
    exact hlast.injective label label' number hlook hlook'
  · rintro rfl
    exact Option.some.inj (hlook.symm.trans hlook')

end Potts.Partition

import Potts.NullModel.Correlated
import Potts.Proofs.Failure.Checked

/-!
# The tables of the correlated null model

Every table that the correlated null model is built from has a place for each degree class, so no
position lies outside of it. What the steps of the building make of the tables is given here by
plain functions: `columnOf` and `columnsOf` for the columns of the shares, `addAll` and `summedRows`
for the rows of expectations.
-/

namespace Potts.NullModel.Correlated

open Checked

variable {F : Type} {n c : Nat} {matrix : Array (Array F)}

/-! ## Square matrices -/

/-- A matrix with a row and a column for every class. -/
structure Square (n : Nat) (matrix : Array (Array F)) : Prop where
  size_eq : matrix.size = n
  size_row : ∀ row ∈ matrix, row.size = n

theorem square_replicate (n : Nat) (x : F) :
    Square n (Array.replicate n (Array.replicate n x)) where
  size_eq := Array.size_replicate
  size_row row hrow := by rw [(Array.mem_replicate.1 hrow).2, Array.size_replicate]

theorem Square.modify (h : Square n matrix) (c : Nat) {f : Array F → Array F}
    (hf : ∀ row, (f row).size = row.size) : Square n (matrix.modify c f) where
  size_eq := by rw [Array.size_modify, h.size_eq]
  size_row row hrow := by
    obtain ⟨i, hi, rfl⟩ := Array.mem_iff_getElem.1 hrow
    rw [Array.size_modify] at hi
    rw [Array.getElem_modify]
    split
    · rw [hf, h.size_row _ (Array.getElem_mem hi)]
    · exact h.size_row _ (Array.getElem_mem hi)

variable [Scalar F]

theorem Square.map_shares (h : Square n matrix) : Square n (matrix.map shares) where
  size_eq := by rw [Array.size_map, h.size_eq]
  size_row row hrow := by
    obtain ⟨row, hmem, rfl⟩ := Array.mem_map.1 hrow
    rw [shares, ← h.size_row row hmem]
    split
    · exact Array.size_map
    · rfl

/-- One more at one entry. -/
def increment (matrix : Array (Array F)) (c c' : Nat) : Array (Array F) :=
  matrix.modify c (·.modify c' (· + Scalar.one))

theorem Square.increment (h : Square n matrix) (c c' : Nat) :
    Square n (Correlated.increment matrix c c') := h.modify c fun _ => Array.size_modify

theorem Square.countEnd_eq_ok (h : Square n matrix) {c c' : Nat} (hc : c < n) (hc' : c' < n) :
    countEnd matrix c c' = .ok (Correlated.increment matrix c c') := by
  have hlt : c < matrix.size := by rwa [h.size_eq]
  refine modifyM_eq_ok hlt (modify_eq_ok ?_ _)
  rwa [h.size_row _ (Array.getElem_mem hlt)]

/-! ## Columns -/

/-- The positive entries of a column. -/
def columnOf (matrix : Array (Array F)) (c : Nat) : List (Nat × F) :=
  matrix.toList.zipIdx.filterMap fun row =>
    row.1[c]?.bind fun p => if Scalar.zero < p then some (row.2, p) else none

/-- The columns of the shares that a matrix of edge ends has. -/
def columnsOf (n : Nat) (ends : Array (Array F)) : Array (List (Nat × F)) :=
  ((List.range n).map (columnOf (ends.map shares))).toArray

theorem Square.column_eq_ok (h : Square n matrix) (hc : c < n) :
    column matrix c = .ok (columnOf matrix c) := by
  refine filterMapM_eq_ok fun row hrow => ?_
  have hrow' : row.1 ∈ matrix := Array.mem_toList_iff.1 (List.fst_mem_of_mem_zipIdx hrow)
  have hlt : c < row.1.size := by rwa [h.size_row _ hrow']
  rw [fetch_eq_ok (Array.getElem?_eq_getElem hlt), Array.getElem?_eq_getElem hlt]
  rfl

theorem Square.columns_eq_ok (h : Square n matrix) :
    (List.range n).mapM (column (matrix.map shares)) =
      .ok ((List.range n).map (columnOf (matrix.map shares))) :=
  mapM_eq_ok fun _ hc => h.map_shares.column_eq_ok (List.mem_range.1 hc)

theorem of_mem_columnOf {entry : Nat × F} (h : entry ∈ columnOf matrix c) :
    entry.1 < matrix.size ∧ Scalar.zero < entry.2 := by
  obtain ⟨⟨row, i⟩, hmem, hentry⟩ := List.mem_filterMap.1 h
  obtain ⟨p, -, hp⟩ := Option.bind_eq_some_iff.1 hentry
  have hi : i < matrix.size := by
    have := (List.mem_zipIdx' hmem).1
    simpa using this
  split at hp
  · rename_i hpos
    cases hp
    exact ⟨hi, hpos⟩
  · cases hp

/-! ## Rows of expectations -/

/-- A class that contributes to the expectations: its column, its size and its label counts. -/
abbrev Contribution (F : Type) := List (Nat × F) × Nat × Tally

/-- The rows with the parts of one class added. -/
def addAll (degrees : Array Nat) (rows : Array (SortedMap Nat F compare))
    (source : Contribution F) : Array (SortedMap Nat F compare) :=
  source.1.foldl
    (fun rows entry =>
      rows.modify entry.1 (addParts (degrees[entry.1]?.getD 0) entry.2 source.2.1 source.2.2))
    rows

/-- What the tables say of one class, given by its column and its number. -/
def contributionOf (classSize : Array Nat) (labelCounts : Array Tally)
    (source : List (Nat × F) × Nat) : Contribution F :=
  (source.1, classSize[source.2]?.getD 0, labelCounts[source.2]?.getD .empty)

/-- What the tables say of the classes that contribute. -/
def contributions (classSize : Array Nat) (columns : Array (List (Nat × F)))
    (labelCounts : Array Tally) : List (Contribution F) :=
  columns.toList.zipIdx.map (contributionOf classSize labelCounts)

/-- The rows of all classes, summed over the classes that contribute to them. -/
def summedRows (degrees classSize : Array Nat) (columns : Array (List (Nat × F)))
    (labelCounts : Array Tally) : Array (SortedMap Nat F compare) :=
  (contributions classSize columns labelCounts).foldl (addAll degrees)
    (Array.replicate degrees.size .empty)

variable {degrees classSize : Array Nat} {columns : Array (List (Nat × F))}
  {labelCounts : Array Tally}

theorem yields_addEntry {entry : Nat × F} (hentry : entry.1 < degrees.size) (size : Nat)
    (counts : Tally) (rows : Rows F degrees.size) :
    Yields (addEntry degrees size counts rows entry) fun rows' => rows'.toArray =
      rows.toArray.modify entry.1
        (addParts (degrees[entry.1]?.getD 0) entry.2 size counts) := by
  have hdegree : degrees[entry.1]? = some degrees[entry.1] := Array.getElem?_eq_getElem hentry
  have hrow : rows.toArray[entry.1]? = some rows[entry.1] := by
    rw [Vector.getElem?_toArray, Vector.getElem?_eq_getElem hentry]
  rw [addEntry, fetch_eq_ok hdegree, ok_bind, fetch_eq_ok hrow, ok_bind, hdegree, Option.getD_some]
  refine yields_pure (Array.ext_getElem? fun i => ?_)
  rw [Vector.toArray_setIfInBounds, Array.getElem?_setIfInBounds, Array.getElem?_modify]
  split
  · rename_i hi
    rw [← hi, hrow, Option.map_some, if_pos (by rwa [Vector.size_toArray])]
  · rfl

theorem yields_addColumn {source : List (Nat × F) × Nat} {size : Nat} {counts : Tally}
    (hsize : classSize[source.2]? = some size) (hcounts : labelCounts[source.2]? = some counts)
    (hsource : ∀ entry ∈ source.1, entry.1 < degrees.size) (rows : Rows F degrees.size) :
    Yields (addColumn degrees classSize labelCounts rows source) fun rows' =>
      rows'.toArray = addAll degrees rows.toArray (source.1, size, counts) := by
  rw [addColumn, fetch_eq_ok hsize, ok_bind, fetch_eq_ok hcounts, ok_bind]
  refine Yields.foldlM (fun done (rows' : Rows F degrees.size) =>
    rows'.toArray = addAll degrees rows.toArray (done, size, counts)) rfl ?_
  intro done entry rest rows' hdone hrows'
  have hentry := hsource entry (by rw [hdone]; simp)
  refine (yields_addEntry hentry size counts rows').mono fun rows'' hrows'' => ?_
  rw [hrows'', hrows', addAll, addAll, List.foldl_append, List.foldl_cons, List.foldl_nil]

/-- The expectations are summed without a fault if the tables have a place for every class. -/
theorem yields_expectationRows (hsizes : classSize.size = columns.size)
    (hcounts : labelCounts.size = columns.size)
    (hcolumns : ∀ column ∈ columns, ∀ entry ∈ column, entry.1 < degrees.size) :
    Yields (expectationRows degrees classSize columns labelCounts) fun rows =>
      rows.toArray = summedRows degrees classSize columns labelCounts := by
  refine Yields.foldlM (fun done (rows : Rows F degrees.size) => rows.toArray =
    (done.map (contributionOf classSize labelCounts)).foldl (addAll degrees)
      (Array.replicate degrees.size .empty)) Vector.toArray_replicate ?_
  intro done source rest rows hdone hrows
  have hmem : source ∈ columns.toList.zipIdx := by rw [hdone]; simp
  have hlt : source.2 < columns.size := by
    have := (List.mem_zipIdx' hmem).1
    simpa using this
  have hsize : classSize[source.2]? = some classSize[source.2] := Array.getElem?_eq_getElem _
  have hcount : labelCounts[source.2]? = some labelCounts[source.2] := Array.getElem?_eq_getElem _
  have hcolumn := hcolumns source.1 (Array.mem_toList_iff.1 (List.fst_mem_of_mem_zipIdx hmem))
  refine (yields_addColumn hsize hcount hcolumn rows).mono fun rows' hrows' => ?_
  rw [hrows', hrows, List.map_append, List.foldl_append, List.map_singleton, List.foldl_cons,
    List.foldl_nil]
  rw [contributionOf, hsize, hcount, Option.getD_some, Option.getD_some]

end Potts.NullModel.Correlated

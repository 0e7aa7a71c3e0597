import Potts.Proofs.Graph.DegreeClass
import Potts.Proofs.Graph.Incidence
import Potts.Proofs.NullModel.Tables
import Potts.Proofs.Partition.Population

/-!
# The correlated null model follows the labels

`Follows` says that the whole numbers of a correlated null model are those of a list of labels, that
its shares are those of the network, and that there is a row of expectations for every degree class.
The model that is built from the labels has this, and a move of a vertex keeps it without a fault.

What a move does to the expectations is said by `moveParts`: every row loses, for each part that the
vertex has in it, that part at the old label and gains it at the new one. The rows of other labels
are left alone, for any meaning of the arithmetic. The rows of a label that is left by its last
vertex lose their entries.
-/

namespace Potts.NullModel.Correlated

open Checked Potts.Partition

variable {F : Type} [Scalar F] {net : Network F} {m : Correlated F} {labels : List Nat}
  {v source target : Nat}

/-! ## Rows of expectations -/

/-- What every class expects in each label. -/
def rows (m : Correlated F) : Array (SortedMap Nat F compare) := m.expectations.toArray

omit [Scalar F] in
theorem size_rows (m : Correlated F) : m.rows.size = m.degrees.size := m.expectations.size_toArray

/-- The entry of a table of rows for a class and a label. -/
def cell? (rows : Array (SortedMap Nat F compare)) (c label : Nat) : Option F :=
  rows[c]?.bind fun row => row.get? label

theorem expected_of_class {degree c : Nat} (hclass : m.classOf.get? degree = some c)
    {row : SortedMap Nat F compare} (hrow : m.rows[c]? = some row) (label : Nat) :
    m.expected degree label = (row.get? label).getD Scalar.zero := by
  have hlt := m.classOf_lt degree c hclass
  rw [rows, Vector.getElem?_toArray, Vector.getElem?_eq_getElem hlt] at hrow
  cases hrow
  unfold expected
  split
  · rename_i hnone
    rw [hclass] at hnone
    cases hnone
  · rename_i c' hc'
    rw [hclass] at hc'
    cases hc'
    rfl

theorem expected_of_no_class {degree : Nat} (hclass : m.classOf.get? degree = none) (label : Nat) :
    m.expected degree label = Scalar.zero := by
  unfold expected
  split
  · rfl
  · rename_i c hc
    rw [hclass] at hc
    cases hc

omit [Scalar F] in
theorem exists_row_of_class {degree c : Nat} (hclass : m.classOf.get? degree = some c) :
    ∃ row, m.rows[c]? = some row :=
  ⟨_, Array.getElem?_eq_getElem (by rw [size_rows]; exact m.classOf_lt degree c hclass)⟩

theorem expected_eq_cell? (m : Correlated F) (degree label : Nat) :
    m.expected degree label =
      ((m.classOf.get? degree).bind fun c => cell? m.rows c label).getD Scalar.zero := by
  cases hclass : m.classOf.get? degree with
  | none => exact expected_of_no_class hclass label
  | some c =>
    obtain ⟨row, hrow⟩ := exists_row_of_class hclass
    rw [expected_of_class hclass hrow, Option.bind_some, cell?, hrow, Option.bind_some]

theorem get?_raise (row : SortedMap Nat F compare) (label : Nat) (more : F) (other : Nat) :
    (raise row label more).get? other =
      if other = label then some ((row.get? label).getD Scalar.zero + more) else row.get? other :=
  SortedMap.get?_alter_label row label other _

theorem get?_lower (row : SortedMap Nat F compare) (label : Nat) (less : F) (other : Nat) :
    (lower row label less).get? other =
      if other = label then (row.get? label).map (· - less) else row.get? other :=
  SortedMap.get?_alter_label row label other _

theorem isSome_raise (row : SortedMap Nat F compare) (a : Nat) (more : F) (label : Nat) :
    ((raise row a more).get? label).isSome = true ↔
      (row.get? label).isSome = true ∨ label = a := by
  rw [get?_raise]
  by_cases h : label = a <;> simp [h]

theorem isSome_lower (row : SortedMap Nat F compare) (a : Nat) (less : F) (label : Nat) :
    ((lower row a less).get? label).isSome = (row.get? label).isSome := by
  rw [get?_lower]
  by_cases h : label = a
  · rw [if_pos h, h, Option.isSome_map]
  · rw [if_neg h]

theorem isSome_addParts (degree : Nat) (p : F) (size : Nat) (counts : Tally)
    (row : SortedMap Nat F compare) (label : Nat) :
    ((addParts degree p size counts row).get? label).isSome = true ↔
      (row.get? label).isSome = true ∨ (SortedMap.get? counts label).isSome = true := by
  have key : ∀ (l : List (Nat × Nat)) (row : SortedMap Nat F compare),
      ((l.foldl (fun row held => raise row held.1 (part degree p held.2 size)) row).get?
        label).isSome = true ↔ (row.get? label).isSome = true ∨ ∃ n, (label, n) ∈ l := by
    intro l
    induction l with
    | nil => simp
    | cons held l ih =>
      intro row
      rw [List.foldl_cons, ih, isSome_raise, or_assoc]
      refine or_congr_right ?_
      constructor
      · rintro (rfl | ⟨n, hmem⟩)
        · exact ⟨held.2, List.mem_cons_self⟩
        · exact ⟨n, List.mem_cons_of_mem held hmem⟩
      · rintro ⟨n, hmem⟩
        rcases List.mem_cons.1 hmem with rfl | hmem
        · exact Or.inl rfl
        · exact Or.inr ⟨n, hmem⟩
  rw [addParts, key]
  simp only [SortedMap.mem_entries_iff, ← Option.isSome_iff_exists]

/-- Move parts of an expectation from one label to another. -/
def moveParts (source target : Nat) (parts : List F) (row : SortedMap Nat F compare) :
    SortedMap Nat F compare :=
  parts.foldl (fun row part => raise (lower row source part) target part) row

theorem get?_moveParts_of_ne {label : Nat} (hsource : label ≠ source) (htarget : label ≠ target)
    (parts : List F) (row : SortedMap Nat F compare) :
    (moveParts source target parts row).get? label = row.get? label := by
  induction parts generalizing row with
  | nil => rfl
  | cons part parts ih =>
    rw [moveParts, List.foldl_cons, ← moveParts, ih, get?_raise, if_neg htarget, get?_lower,
      if_neg hsource]

theorem isSome_moveParts (source target : Nat) (parts : List F) (row : SortedMap Nat F compare)
    (label : Nat) :
    ((moveParts source target parts row).get? label).isSome = true ↔
      (row.get? label).isSome = true ∨ (label = target ∧ parts ≠ []) := by
  induction parts generalizing row with
  | nil => simp [moveParts]
  | cons part parts ih =>
    rw [moveParts, List.foldl_cons, ← moveParts, ih, isSome_raise, isSome_lower]
    simp only [ne_eq, reduceCtorEq, not_false_eq_true, and_true]
    tauto

/-- The parts that one vertex of a class of `size` vertices has in the expectations of class `c`. -/
def partsOf (degrees : Array Nat) (size : Nat) (column : List (Nat × F)) (c : Nat) : List F :=
  (column.filter (·.1 == c)).map fun entry =>
    ((degrees[c]?.getD 0 : Nat) : F) * entry.2 / (size : F)

theorem partsOf_concat (degrees : Array Nat) (size : Nat) (column : List (Nat × F))
    (entry : Nat × F) (c : Nat) :
    partsOf degrees size (column ++ [entry]) c = partsOf degrees size column c ++
      if entry.1 = c then [((degrees[c]?.getD 0 : Nat) : F) * entry.2 / (size : F)] else [] := by
  rw [partsOf, List.filter_append, List.map_append, ← partsOf]
  by_cases h : entry.1 = c <;> simp [h]

theorem yields_movePart (size source target : Nat) {column : List (Nat × F)}
    (rows : Rows F m.degrees.size) (hcolumn : ∀ entry ∈ column, entry.1 < m.degrees.size) :
    Yields (column.foldlM (movePart m size source target) rows) fun rows' =>
      ∀ (c : Nat) (row : SortedMap Nat F compare), rows.toArray[c]? = some row →
        rows'.toArray[c]? =
          some (moveParts source target (partsOf m.degrees size column c) row) := by
  refine Yields.foldlM
    (fun done (rows' : Rows F m.degrees.size) =>
      ∀ (c : Nat) (row : SortedMap Nat F compare), rows.toArray[c]? = some row →
        rows'.toArray[c]? = some (moveParts source target (partsOf m.degrees size done c) row))
    (fun c row h => h) ?_
  intro done entry rest rows' hdone hrows'
  have hentry : entry.1 < m.degrees.size := hcolumn entry (by rw [hdone]; simp)
  have hlt : entry.1 < rows.toArray.size := by rwa [Vector.size_toArray]
  have hdegree : m.degrees[entry.1]? = some m.degrees[entry.1] := Array.getElem?_eq_getElem hentry
  have hrow := hrows' entry.1 _ (Array.getElem?_eq_getElem hlt)
  refine (yields_fetch hdegree rfl).bind fun degree hd => ?_
  refine (yields_fetch hrow rfl).bind fun row hr => yields_pure fun c row₀ hrow₀ => ?_
  rw [Vector.toArray_setIfInBounds, Array.getElem?_setIfInBounds, partsOf_concat, moveParts,
    List.foldl_append, ← moveParts]
  by_cases hc : entry.1 = c
  · subst hc
    rw [Array.getElem?_eq_getElem hlt] at hrow₀
    cases hrow₀
    rw [if_pos rfl, if_pos (by rwa [Vector.size_toArray]), if_pos rfl, hdegree, ← hd, ← hr]
    rfl
  · rw [if_neg hc, if_neg hc]
    exact hrows' c row₀ hrow₀

/-! ## Class sizes and label counts -/

/-- One for the vertices of a degree, zero for the others. -/
def inClass (net : Network F) (degree v : Nat) : Nat := if net.degree v = degree then 1 else 0

/-- The sizes of the classes and the counts of the labels in every class, for the labels of the
first vertices. -/
structure CountsClasses (net : Network F) (classSize : Array Nat) (labelCounts : Array Tally)
    (labels : List Nat) : Prop where
  size_classSize : classSize.size = net.degreeClasses.length
  size_labelCounts : labelCounts.size = net.degreeClasses.length
  classSize_eq : ∀ c degree : Nat, net.degreeClasses[c]? = some degree →
    classSize[c]? = some (∑ u ∈ Finset.range labels.length, inClass net degree u)
  labelCounts_eq : ∀ c degree : Nat, net.degreeClasses[c]? = some degree →
    ∃ counts, labelCounts[c]? = some counts ∧
      ∀ label, counts.amount label = heldSum (inClass net degree) labels label

theorem yields_classOfVertex (hv : v < net.size) :
    Yields (classOfVertex net (classNumbers net.degreeClasses) v)
      fun c => net.degreeClasses[c]? = some (net.degree v) := by
  obtain ⟨c, hc, hclass⟩ := net.exists_class hv
  rw [classOfVertex, net.degreeAt_eq_ok hv, ok_bind]
  exact yields_expect hclass hc

theorem yields_classOfVertex_lt (hv : v < net.size) :
    Yields (classOfVertex net (classNumbers net.degreeClasses) v)
      (· < net.degreeClasses.length) :=
  (yields_classOfVertex hv).mono fun _ hc => (List.getElem?_eq_some_iff.1 hc).1

theorem class_unique {c c' degree : Nat} (h : net.degreeClasses[c]? = some degree)
    (h' : net.degreeClasses[c']? = some degree) : c = c' := by
  have hget := (get?_classNumbers net.nodup_degreeClasses).2 h
  rw [(get?_classNumbers net.nodup_degreeClasses).2 h'] at hget
  exact (Option.some.inj hget).symm

theorem inClass_eq {c c' degree : Nat} (hc : net.degreeClasses[c]? = some (net.degree v))
    (hc' : net.degreeClasses[c']? = some degree) :
    inClass net degree v = if c = c' then 1 else 0 := by
  rw [inClass]
  refine if_congr ⟨fun h => class_unique hc (h ▸ hc'), ?_⟩ rfl rfl
  rintro rfl
  rw [hc] at hc'
  exact Option.some.inj hc'

theorem CountsClasses.concat {classSize : Array Nat} {labelCounts : Array Tally}
    (h : CountsClasses net classSize labelCounts labels) {c : Nat}
    (hc : net.degreeClasses[c]? = some (net.degree labels.length)) (a : Nat) :
    CountsClasses net (classSize.modify c (· + 1)) (labelCounts.modify c (·.raise a 1))
      (labels ++ [a]) where
  size_classSize := by rw [Array.size_modify, h.size_classSize]
  size_labelCounts := by rw [Array.size_modify, h.size_labelCounts]
  classSize_eq c' degree hc' := by
    rw [Array.getElem?_modify, h.classSize_eq c' degree hc', List.length_append,
      List.length_singleton, Finset.sum_range_succ, inClass_eq hc hc']
    split <;> rfl
  labelCounts_eq c' degree hc' := by
    obtain ⟨t, ht, hamount⟩ := h.labelCounts_eq c' degree hc'
    rw [Array.getElem?_modify, ht]
    by_cases hcc : c = c'
    · refine ⟨t.raise a 1, by rw [if_pos hcc, Option.map_some], fun label => ?_⟩
      rw [Tally.amount_raise, hamount, heldSum_concat, inClass_eq hc hc', if_pos hcc]
    · refine ⟨t, by rw [if_neg hcc], fun label => ?_⟩
      rw [hamount, heldSum_concat, inClass_eq hc hc', if_neg hcc, ite_self, Nat.add_zero]

theorem yields_countVertex (hlabels : labels.length ≤ net.size) :
    Yields (labels.zipIdx.foldlM (countVertex net (classNumbers net.degreeClasses))
      (Array.replicate net.degreeClasses.length 0,
        Array.replicate net.degreeClasses.length SortedMap.empty))
      fun counts => CountsClasses net counts.1 counts.2 labels := by
  induction labels using List.reverseRecOn with
  | nil =>
    refine yields_pure ⟨by simp, by simp, fun c degree hc => ?_, fun c degree hc => ?_⟩
    all_goals obtain ⟨hlt, -⟩ := List.getElem?_eq_some_iff.1 hc
    · simp [hlt]
    · exact ⟨.empty, by simp [hlt], fun label => rfl⟩
  | append_singleton labels a ih =>
    rw [List.length_append, List.length_singleton] at hlabels
    rw [List.zipIdx_append, List.foldlM_append]
    refine (ih (by omega)).bind fun counts hcounts => ?_
    rw [List.zipIdx_singleton, List.foldlM_cons, Nat.zero_add]
    refine Yields.bind (P := fun counts' => CountsClasses net counts'.1 counts'.2 (labels ++ [a]))
      ?_ fun counts' h => yields_pure h
    refine (yields_classOfVertex (by omega)).bind fun c hc => ?_
    obtain ⟨hlt, -⟩ := List.getElem?_eq_some_iff.1 hc
    rw [modify_eq_ok (by rwa [hcounts.size_classSize]), ok_bind,
      modify_eq_ok (by rwa [hcounts.size_labelCounts]), ok_bind]
    exact yields_pure (hcounts.concat hc a)

theorem CountsClasses.yields_lower {classSize : Array Nat} {labelCounts : Array Tally}
    (h : CountsClasses net classSize labelCounts labels) (hv : labels[v]? = some source)
    {c : Nat} (hc : net.degreeClasses[c]? = some (net.degree v)) {counts : Tally}
    (hcounts : labelCounts[c]? = some counts) (target : Nat) :
    Yields (counts.lower source 1 : Checked F Tally) fun lowered =>
      CountsClasses net classSize (labelCounts.setIfInBounds c (lowered.raise target 1))
        (labels.set v target) := by
  obtain ⟨hclt, -⟩ := List.getElem?_eq_some_iff.1 hc
  have hone : inClass net (net.degree v) v = 1 := if_pos rfl
  obtain ⟨t, ht, hamount⟩ := h.labelCounts_eq c _ hc
  rw [hcounts] at ht
  cases ht
  have hlower := Tally.yields_lower_heldSum (F := F) hamount hv target
  rw [hone] at hlower
  refine hlower.mono fun lowered hlowered => ?_
  refine ⟨h.size_classSize, ?_, fun c' degree hc' => ?_, fun c' degree hc' => ?_⟩
  · rw [Array.size_setIfInBounds, h.size_labelCounts]
  · rw [List.length_set]
    exact h.classSize_eq c' degree hc'
  · rw [Array.getElem?_setIfInBounds]
    by_cases hcc : c = c'
    · subst hcc
      rw [hc] at hc'
      cases hc'
      rw [if_pos rfl, if_pos (by rwa [h.size_labelCounts])]
      exact ⟨_, rfl, hlowered⟩
    · obtain ⟨t, ht, hamount'⟩ := h.labelCounts_eq c' degree hc'
      refine ⟨t, by rw [if_neg hcc, ht], fun label => ?_⟩
      have hset := heldSum_set (inClass net degree) hv target label
      rw [inClass_eq hc hc', if_neg hcc] at hset
      rw [hamount']
      simpa using hset.symm

/-! ## Shares of edge ends -/

/-- The edge ends of a network, counted by the classes that they join. -/
def countEnds (net : Network F) : Checked F (Array (Array F)) :=
  net.edges.foldlM (countEdge net (classNumbers net.degreeClasses))
    (Array.replicate net.degreeClasses.length
      (Array.replicate net.degreeClasses.length Scalar.zero))

/-- The columns are made from the edge ends of the network. -/
def HasColumns (net : Network F) (columns : Array (List (Nat × F))) : Prop :=
  ∃ ends, countEnds net = .ok ends ∧ Square net.degreeClasses.length ends ∧
    columns = columnsOf net.degreeClasses.length ends

theorem Square.countEdge_eq_ok {n : Nat} {ends : Array (Array F)} (hends : Square n ends)
    {classOf : SortedMap Nat Nat compare} {e : Edge F} {c c' : Nat}
    (hsource : classOfVertex net classOf e.source = .ok c) (hc : c < n)
    (htarget : classOfVertex net classOf e.target = .ok c') (hc' : c' < n) :
    countEdge net classOf ends e =
      .ok (Correlated.increment (Correlated.increment ends c c') c' c) := by
  rw [countEdge, hsource, ok_bind, htarget, ok_bind, hends.countEnd_eq_ok hc hc', ok_bind,
    (hends.increment c c').countEnd_eq_ok hc' hc]

theorem yields_countEdge {ends : Array (Array F)} (hends : Square net.degreeClasses.length ends)
    {e : Edge F} (he : e ∈ net.edges) :
    Yields (countEdge net (classNumbers net.degreeClasses) ends e) fun ends' =>
      ∃ c c', net.degreeClasses[c]? = some (net.degree e.source) ∧
        net.degreeClasses[c']? = some (net.degree e.target) ∧
        ends' = increment (increment ends c c') c' c := by
  obtain ⟨c, hsource, hc⟩ := yields_classOfVertex (net.source_lt he)
  obtain ⟨c', htarget, hc'⟩ := yields_classOfVertex (net.target_lt he)
  obtain ⟨hlt, -⟩ := List.getElem?_eq_some_iff.1 hc
  obtain ⟨hlt', -⟩ := List.getElem?_eq_some_iff.1 hc'
  exact ⟨_, hends.countEdge_eq_ok hsource hlt htarget hlt', c, c', hc, hc', rfl⟩

theorem yields_countEnds (net : Network F) :
    Yields (countEnds net) (Square net.degreeClasses.length) := by
  refine Yields.foldlM_const (square_replicate _ _) fun e he ends hends => ?_
  refine (yields_countEdge hends he).mono ?_
  rintro ends' ⟨c, c', -, -, rfl⟩
  exact (hends.increment c c').increment c' c

theorem HasColumns.unique {columns columns' : Array (List (Nat × F))} (h : HasColumns net columns)
    (h' : HasColumns net columns') : columns = columns' := by
  obtain ⟨ends, hends, -, rfl⟩ := h
  obtain ⟨ends', hends', -, rfl⟩ := h'
  rw [hends] at hends'
  cases hends'
  rfl

theorem HasColumns.size_eq {columns : Array (List (Nat × F))} (h : HasColumns net columns) :
    columns.size = net.degreeClasses.length := by
  obtain ⟨ends, -, -, rfl⟩ := h
  simp [columnsOf]

theorem HasColumns.of_mem {columns : Array (List (Nat × F))} (h : HasColumns net columns)
    {column : List (Nat × F)} (hcolumn : column ∈ columns) {entry : Nat × F}
    (hentry : entry ∈ column) :
    entry.1 < net.degreeClasses.length ∧ Scalar.zero < entry.2 := by
  obtain ⟨ends, -, hsquare, rfl⟩ := h
  obtain ⟨c, -, rfl⟩ := List.mem_map.1 (List.mem_toArray.1 hcolumn)
  obtain ⟨hlt, hpos⟩ := of_mem_columnOf hentry
  rw [hsquare.map_shares.size_eq] at hlt
  exact ⟨hlt, hpos⟩

/-! ## Following the labels -/

/-- The model has the degree classes and the shares of the network, and counts the labels in every
class and altogether. -/
structure Follows (net : Network F) (m : Correlated F) (labels : List Nat) : Prop where
  length_eq : labels.length = net.size
  degrees_eq : m.degrees = net.degreeClasses.toArray
  classOf_eq : m.classOf = classNumbers net.degreeClasses
  counts : CountsClasses net m.classSize m.labelCounts labels
  columns : HasColumns net m.columns
  totals : m.labelTotals.Counts labels

theorem Follows.size_rows (h : Follows net m labels) :
    m.rows.size = net.degreeClasses.length := by
  rw [Correlated.size_rows, h.degrees_eq, List.size_toArray]

theorem yields_ofLabels (hlabels : labels.length = net.size) :
    Yields (ofLabels net labels) fun m => Follows net m labels ∧
      m.rows = summedRows m.degrees m.classSize m.columns m.labelCounts := by
  rw [ofLabels, ofClasses]
  simp only [List.size_toArray]
  refine (yields_countVertex hlabels.le).bind fun counts hcounts => ?_
  obtain ⟨ends, hends, hsquare⟩ := yields_countEnds net
  have hcolumns : HasColumns net (columnsOf net.degreeClasses.length ends) :=
    ⟨ends, hends, hsquare, rfl⟩
  rw [countEnds] at hends
  rw [hends, ok_bind, hsquare.columns_eq_ok, ok_bind, ← columnsOf]
  refine (yields_expectationRows ?_ ?_ ?_).bind fun rows hrows => yields_pure ⟨?_, hrows⟩
  · rw [hcounts.size_classSize, hcolumns.size_eq]
  · rw [hcounts.size_labelCounts, hcolumns.size_eq]
  · intro column hcolumn entry hentry
    rw [List.size_toArray]
    exact (hcolumns.of_mem hcolumn hentry).1
  · exact ⟨hlabels, rfl, rfl, hcounts, hcolumns, Population.counts_ofLabels labels⟩

/-- What a move of the vertex `v` does to the rows of expectations. -/
structure MovesRows (net : Network F) (m m' : Correlated F) (labels : List Nat)
    (v source target : Nat) : Prop where
  columns_eq : m'.columns = m.columns
  classSize_eq : m'.classSize = m.classSize
  rows_eq : ∃ (c size : Nat) (column : List (Nat × F)),
    net.degreeClasses[c]? = some (net.degree v) ∧
    m.classSize[c]? = some size ∧ m.columns[c]? = some column ∧
    ∀ (i : Nat) (row : SortedMap Nat F compare), m.rows[i]? = some row →
      let moved := moveParts source target (partsOf m.degrees size column i) row
      m'.rows[i]? =
        some (if (labels.set v target).count source = 0 then moved.erase source else moved)

/-- A move of a vertex does not fault, and the model follows the labels after the move. -/
theorem Follows.yields_update (h : Follows net m labels) (hv : labels[v]? = some source)
    (target : Nat) :
    Yields (m.update (net.degree v) source target) fun m' =>
      Follows net m' (labels.set v target) ∧ MovesRows net m m' labels v source target := by
  obtain ⟨hlt, -⟩ := List.getElem?_eq_some_iff.1 hv
  obtain ⟨c, hc, hclass⟩ := net.exists_class (h.length_eq ▸ hlt)
  obtain ⟨hclt, -⟩ := List.getElem?_eq_some_iff.1 hc
  have hsize := h.counts.classSize_eq c _ hc
  have hcolumns : c < m.columns.size := by rwa [h.columns.size_eq]
  have hcolumn : m.columns[c]? = some m.columns[c] := Array.getElem?_eq_getElem hcolumns
  have hdegrees : m.degrees.size = net.degreeClasses.length := by
    rw [h.degrees_eq, List.size_toArray]
  rw [← h.classOf_eq] at hclass
  rw [update, hclass]
  refine (yields_fetch hsize rfl).bind fun size hsize' => ?_
  refine (yields_fetch hcolumn rfl).bind fun column hcolumn' => ?_
  refine (yields_movePart size source target m.expectations ?_).bind fun rows hrows => ?_
  · intro entry hentry
    rw [hdegrees]
    exact (h.columns.of_mem (Array.getElem_mem hcolumns) (by rwa [hcolumn'])).1
  obtain ⟨counts, hcounts, hamount⟩ := h.counts.labelCounts_eq c _ hc
  refine (yields_fetch hcounts rfl).bind fun t ht => ?_
  subst ht
  refine (h.counts.yields_lower hv hc hcounts target).bind fun lowered hlowered => ?_
  refine (h.totals.yields_transfer hv target).bind fun totals htotals => yields_pure ⟨?_, ?_⟩
  · exact ⟨by rw [List.length_set, h.length_eq], h.degrees_eq, h.classOf_eq, hlowered, h.columns,
      htotals⟩
  · refine ⟨rfl, rfl, c, size, column, hc, by rw [hsize, hsize'], by rw [hcolumn, hcolumn'],
      fun i row hrow => ?_⟩
    have hmoved := hrows i row hrow
    have hcount := htotals.count_eq source
    by_cases hzero : totals.count source = 0
    · simp only [Correlated.rows, hzero, if_true, ← hcount, Vector.toArray_map, Array.getElem?_map,
        hmoved, Option.map_some]
    · simp only [Correlated.rows, hzero, if_false, ← hcount, hmoved]

theorem Follows.exists_row {m' : Correlated F} {labels' : List Nat} (h : Follows net m labels)
    (h' : Follows net m' labels') {c : Nat} {row' : SortedMap Nat F compare}
    (hrow' : m'.rows[c]? = some row') : ∃ row, m.rows[c]? = some row := by
  obtain ⟨hlt, -⟩ := Array.getElem?_eq_some_iff.1 hrow'
  rw [h'.size_rows, ← h.size_rows] at hlt
  exact ⟨_, Array.getElem?_eq_getElem hlt⟩

theorem Follows.expected_of_ne {m' : Correlated F} (h : Follows net m labels)
    (h' : Follows net m' (labels.set v target)) (hmoves : MovesRows net m m' labels v source target)
    {label : Nat} (hsource : label ≠ source) (htarget : label ≠ target) (degree : Nat) :
    m'.expected degree label = m.expected degree label := by
  obtain ⟨c, size, column, -, -, -, hrows⟩ := hmoves.rows_eq
  rw [expected_eq_cell?, expected_eq_cell?, h.classOf_eq, h'.classOf_eq]
  congr 2
  funext i
  rw [cell?, cell?]
  cases hrow : m.rows[i]? with
  | none =>
    have hout : m'.rows[i]? = none := by
      rw [Array.getElem?_eq_none_iff, h.size_rows] at hrow
      rwa [Array.getElem?_eq_none_iff, h'.size_rows]
    rw [hout]
  | some row =>
    rw [hrows i row hrow, Option.bind_some, Option.bind_some]
    split
    · rw [SortedMap.get?_erase_label, if_neg hsource, get?_moveParts_of_ne hsource htarget]
    · rw [get?_moveParts_of_ne hsource htarget]

end Potts.NullModel.Correlated

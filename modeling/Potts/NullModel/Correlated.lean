import Potts.Graph.DegreeClass
import Potts.Partition.Population

/-!
# The correlated null model

Every vertex keeps its degree, and vertices of two degrees are joined as often as in the network. A
vertex of degree `k` expects `Σ k P(k, k') N(k', s) / N(k')` in label `s`, where `P(k, k')` is the
share of the edge ends at degree `k` whose other end has degree `k'`, `N(k')` the number of vertices
of degree `k'` and `N(k', s)` the number of those that hold `s`.

The expectations are kept as a table and changed in place: a vertex that moves takes its part of
every expectation along. A label that no vertex holds any more loses its row entries, so it expects
exactly nothing whatever rounding has left in them.
-/

namespace Potts.NullModel

/-- The correlated null model of a network and its labels. Classes are numbered by ascending
degree. -/
structure Correlated (F : Type) where
  degrees : Array Nat
  /-- The class of every degree that occurs. -/
  classOf : SortedMap Nat Nat compare
  classOf_lt : ∀ degree c : Nat, classOf.get? degree = some c → c < degrees.size
  classSize : Array Nat
  /-- For every class, the classes that have edges into it, with the shares of their edge ends. -/
  columns : Array (List (Nat × F))
  /-- For every class, how many of its vertices hold each label. -/
  labelCounts : Array Tally
  labelTotals : Population
  /-- For every class, what it expects in each label. -/
  expectations : Vector (SortedMap Nat F compare) degrees.size

namespace Correlated

variable {F : Type} [Scalar F]

/-! ## Building -/

def classOfVertex (net : Network F) (classOf : SortedMap Nat Nat compare) (v : Nat) :
    Checked F Nat := do
  let degree ← net.degreeAt v
  Checked.expect (.unclassified degree) (classOf.get? degree)

/-- Count one vertex, given with its label, for its class and for its label within the class. -/
def countVertex (net : Network F) (classOf : SortedMap Nat Nat compare)
    (counts : Array Nat × Array Tally) (held : Nat × Nat) :
    Checked F (Array Nat × Array Tally) := do
  let c ← classOfVertex net classOf held.2
  let sizes ← Checked.modify counts.1 c (· + 1)
  let labelCounts ← Checked.modify counts.2 c (·.raise held.1 1)
  return (sizes, labelCounts)

/-- Count one edge in the matrix of the classes, in the row `c` and the column `c'`. -/
def countEnd (ends : Array (Array F)) (c c' : Nat) : Checked F (Array (Array F)) :=
  Checked.modifyM ends c fun row => Checked.modify row c' (· + Scalar.one)

/-- Count one edge for both directions in the matrix of the classes that it joins. -/
def countEdge (net : Network F) (classOf : SortedMap Nat Nat compare) (ends : Array (Array F))
    (e : Edge F) : Checked F (Array (Array F)) := do
  let c ← classOfVertex net classOf e.source
  let c' ← classOfVertex net classOf e.target
  let ends ← countEnd ends c c'
  countEnd ends c' c

/-- The shares that the entries of a row have in its sum; a row without edges is left as it is. -/
def shares (row : Array F) : Array F :=
  let sum := Scalar.sum row.toList
  if Scalar.zero < sum then row.map (· / sum) else row

/-- The positive entries of a column of a matrix, with the numbers of their rows. -/
def column (matrix : Array (Array F)) (c : Nat) : Checked F (List (Nat × F)) :=
  matrix.toList.zipIdx.filterMapM fun row => do
    let p ← Checked.fetch row.1 c
    return if Scalar.zero < p then some (row.2, p) else none

/-- What a class of degree `degree` expects in a label from a class of `size` vertices, `count` of
which hold the label, if it has the share `p` of its edge ends there. -/
def part (degree : Nat) (p : F) (count size : Nat) : F :=
  (degree : F) * p * (count : F) / (size : F)

def raise (row : SortedMap Nat F compare) (label : Nat) (more : F) : SortedMap Nat F compare :=
  row.alter label fun value => some (value.getD Scalar.zero + more)

/-- Take from an expectation, if there is one. -/
def lower (row : SortedMap Nat F compare) (label : Nat) (less : F) : SortedMap Nat F compare :=
  row.alter label fun value => value.map (· - less)

/-- Add the parts that a class with these label counts contributes to another class. -/
def addParts (degree : Nat) (p : F) (size : Nat) (counts : Tally) (row : SortedMap Nat F compare) :
    SortedMap Nat F compare :=
  counts.entries.foldl (fun row held => raise row held.1 (part degree p held.2 size)) row

/-- The expectations of the classes, one row for each. -/
abbrev Rows (F : Type) (classes : Nat) := Vector (SortedMap Nat F compare) classes

/-- Add the parts that a class contributes to one class of its column. -/
def addEntry (degrees : Array Nat) (size : Nat) (counts : Tally) (rows : Rows F degrees.size)
    (entry : Nat × F) : Checked F (Rows F degrees.size) := do
  let degree ← Checked.fetch degrees entry.1
  let row ← Checked.fetch rows.toArray entry.1
  return rows.setIfInBounds entry.1 (addParts degree entry.2 size counts row)

/-- Add the parts that one class, given by its column and its number, contributes. -/
def addColumn (degrees classSize : Array Nat) (labelCounts : Array Tally)
    (rows : Rows F degrees.size) (source : List (Nat × F) × Nat) :
    Checked F (Rows F degrees.size) := do
  let size ← Checked.fetch classSize source.2
  let counts ← Checked.fetch labelCounts source.2
  source.1.foldlM (addEntry degrees size counts) rows

/-- The expectations of all classes, summed over the classes that contribute to them. -/
def expectationRows (degrees classSize : Array Nat) (columns : Array (List (Nat × F)))
    (labelCounts : Array Tally) : Checked F (Rows F degrees.size) :=
  columns.toList.zipIdx.foldlM (addColumn degrees classSize labelCounts) (.replicate _ .empty)

/-- The model of a network whose vertices hold these labels, given the degrees that occur. -/
def ofClasses (net : Network F) (classDegrees labels : List Nat) : Checked F (Correlated F) := do
  let degrees := classDegrees.toArray
  let classes := degrees.size
  let classOf := classNumbers classDegrees
  let (classSize, labelCounts) ← labels.zipIdx.foldlM (countVertex net classOf)
    (Array.replicate classes 0, Array.replicate classes SortedMap.empty)
  let ends ← net.edges.foldlM (countEdge net classOf)
    (Array.replicate classes (Array.replicate classes Scalar.zero))
  let columns ← (List.range classes).mapM (column (ends.map shares))
  let expectations ← expectationRows degrees classSize columns.toArray labelCounts
  return {
    degrees := degrees
    classOf := classOf
    classOf_lt := fun _ _ h => lt_of_get?_classNumbers h
    classSize := classSize
    columns := columns.toArray
    labelCounts := labelCounts
    labelTotals := .ofLabels labels
    expectations := expectations }

/-- The model of a network whose vertices hold these labels. -/
def ofLabels (net : Network F) (labels : List Nat) : Checked F (Correlated F) :=
  ofClasses net net.degreeClasses labels

/-! ## Reading and updating -/

def expected (m : Correlated F) (degree label : Nat) : F :=
  match hclass : m.classOf.get? degree with
  | none => Scalar.zero
  | some c =>
    have := m.classOf_lt degree c hclass
    (m.expectations[c].get? label).getD Scalar.zero

/-- Move the part that one vertex of a class of `size` vertices has in the expectations of another
class from one label to another. -/
def movePart (m : Correlated F) (size source target : Nat) (rows : Rows F m.degrees.size)
    (entry : Nat × F) : Checked F (Rows F m.degrees.size) := do
  let degree ← Checked.fetch m.degrees entry.1
  let row ← Checked.fetch rows.toArray entry.1
  let delta := (degree : F) * entry.2 / (size : F)
  return rows.setIfInBounds entry.1 (raise (lower row source delta) target delta)

/-- A vertex of this degree moves from one label to another. -/
def update (m : Correlated F) (degree source target : Nat) : Checked F (Correlated F) :=
  match m.classOf.get? degree with
  | none => .ok m
  | some c => do
    let size ← Checked.fetch m.classSize c
    let column ← Checked.fetch m.columns c
    let rows ← column.foldlM (movePart m size source target) m.expectations
    let counts ← Checked.fetch m.labelCounts c
    let counts ← counts.lower source 1
    let totals ← m.labelTotals.transfer source target
    return { m with
      labelCounts := m.labelCounts.setIfInBounds c (counts.raise target 1)
      labelTotals := totals
      expectations := if totals.count source = 0 then rows.map (·.erase source) else rows }

end Correlated

end Potts.NullModel

import Mathlib.Algebra.BigOperators.Ring.Finset
import Mathlib.Algebra.BigOperators.Ring.List
import Mathlib.Tactic.LinearCombination
import Mathlib.Tactic.Ring
import Potts.Proofs.NullModel.Correlated
import Potts.Proofs.Scalar.Exact

/-!
# Correlated expectations in exact arithmetic

Without rounding a row of the correlated null model can be read off the counts: in label `s` the
class `c` expects `Σ pull c' c * N(c', s)`, where `pull c' c` is the part that one vertex of class
`c'` has in the expectations of class `c`. `Summed` says so of a model. It holds of the model that
is built, whatever the order of the sums, and a move keeps it.

A move takes a part away only where there is an entry to take it from. So the invariant also says
that the entries that a vertex has a part in are there; they are, as an entry goes only when the
last vertex of all classes leaves the label.
-/

namespace Potts.NullModel.Correlated

open Potts.Partition

variable {K : Type} [ExactScalar K] {net : Network K} {m m' : Correlated K} {labels : List Nat}
  {v source target label : Nat} {row : SortedMap Nat K compare}

/-! ## Values of a row -/

/-- What a row says of a label; zero without an entry. -/
def value (row : SortedMap Nat K compare) (label : Nat) : K := (row.get? label).getD Scalar.zero

theorem value_eq_zero (h : row.get? label = none) : value row label = 0 := by
  rw [value, h, Option.getD_none, Scalar.zero_eq]

theorem value_raise (row : SortedMap Nat K compare) (a : Nat) (more : K) (label : Nat) :
    value (raise row a more) label = value row label + if label = a then more else 0 := by
  rw [value, get?_raise]
  by_cases h : label = a
  · rw [if_pos h, if_pos h, Option.getD_some, h, value]
  · rw [if_neg h, if_neg h, add_zero, value]

theorem value_lower {a : Nat} (ha : (row.get? a).isSome = true) (less : K) (label : Nat) :
    value (lower row a less) label = value row label - if label = a then less else 0 := by
  rw [value, get?_lower]
  by_cases h : label = a
  · obtain ⟨x, hx⟩ := Option.isSome_iff_exists.1 ha
    rw [if_pos h, if_pos h, h, value, hx, Option.map_some, Option.getD_some, Option.getD_some]
  · rw [if_neg h, if_neg h, sub_zero, value]

theorem value_erase (row : SortedMap Nat K compare) (a label : Nat) :
    value (row.erase a) label = if label = a then 0 else value row label := by
  rw [value, SortedMap.get?_erase_label]
  split
  · exact Scalar.zero_eq
  · rfl

theorem value_moveParts {parts : List K} (hsource : parts ≠ [] → (row.get? source).isSome = true)
    (label : Nat) :
    value (moveParts source target parts row) label + (if label = source then parts.sum else 0) =
      value row label + if label = target then parts.sum else 0 := by
  induction parts generalizing row with
  | nil => simp [moveParts]
  | cons part parts ih =>
    have hentry : (row.get? source).isSome = true := hsource (List.cons_ne_nil part parts)
    have hnext : ((raise (lower row source part) target part).get? source).isSome = true := by
      rw [isSome_raise, isSome_lower]
      exact Or.inl hentry
    have ih' := ih fun _ => hnext
    rw [value_raise, value_lower hentry] at ih'
    rw [moveParts, List.foldl_cons, ← moveParts, List.sum_cons]
    have hsplit : ∀ a : Nat, (if label = a then part + parts.sum else 0) =
        (if label = a then part else 0) + if label = a then parts.sum else 0 := by
      intro a
      split <;> simp
    rw [hsplit source, hsplit target]
    linear_combination ih'

/-! ## Rows in closed form -/

/-- The part that one vertex of class `c'` has in the expectations of class `c`. -/
def pull (m : Correlated K) (c' c : Nat) : K :=
  (partsOf m.degrees (m.classSize[c']?.getD 0) (m.columns[c']?.getD []) c).sum

/-- What class `c` expects in a label, summed over the classes. -/
def mean (m : Correlated K) (c label : Nat) : K :=
  ∑ c' ∈ Finset.range m.columns.size,
    pull m c' c * ((m.labelCounts[c']?.getD .empty).amount label : K)

/-- The rows say what the counts let one expect, and have the entries in which a vertex has a
part. -/
structure Summed (m : Correlated K) : Prop where
  value_eq : ∀ (c : Nat) (row : SortedMap Nat K compare), m.rows[c]? = some row →
    ∀ label, value row label = mean m c label
  isSome : ∀ (c : Nat) (row : SortedMap Nat K compare), m.rows[c]? = some row →
    ∀ (c' : Nat) (column : List (Nat × K)) (counts : Tally), m.columns[c']? = some column →
      m.labelCounts[c']? = some counts → (∃ entry ∈ column, entry.1 = c) →
      ∀ label, 0 < counts.amount label → (row.get? label).isSome = true

theorem partsOf_ne_nil {degrees : Array Nat} {size c : Nat} {column : List (Nat × K)} :
    partsOf degrees size column c ≠ [] ↔ ∃ entry ∈ column, entry.1 = c := by
  rw [partsOf, ne_eq, List.map_eq_nil_iff, List.filter_eq_nil_iff]
  push Not
  simp

theorem Follows.amount_eq (h : Follows net m labels) {c degree : Nat}
    (hc : net.degreeClasses[c]? = some degree) {counts : Tally}
    (hcounts : m.labelCounts[c]? = some counts) (label : Nat) :
    counts.amount label = heldSum (inClass net degree) labels label := by
  obtain ⟨counts', hcounts', hamount⟩ := h.counts.labelCounts_eq c degree hc
  rw [hcounts] at hcounts'
  cases hcounts'
  exact hamount label

theorem Follows.exists_degree (h : Follows net m labels) {c : Nat} {counts : Tally}
    (hcounts : m.labelCounts[c]? = some counts) :
    ∃ degree, net.degreeClasses[c]? = some degree := by
  obtain ⟨hlt, -⟩ := Array.getElem?_eq_some_iff.1 hcounts
  rw [h.counts.size_labelCounts] at hlt
  exact ⟨_, List.getElem?_eq_getElem hlt⟩

theorem Follows.mean_eq_zero (h : Follows net m labels) (hlabel : label ∉ labels) (c : Nat) :
    mean m c label = 0 := by
  refine Finset.sum_eq_zero fun c' _ => ?_
  have hzero : (m.labelCounts[c']?.getD .empty).amount label = 0 := by
    cases hcounts : m.labelCounts[c']? with
    | none => rfl
    | some counts =>
      obtain ⟨degree, hdegree⟩ := h.exists_degree hcounts
      rw [Option.getD_some, h.amount_eq hdegree hcounts, heldSum_eq_zero hlabel]
  rw [hzero, Nat.cast_zero, mul_zero]

theorem mean_update (hfollows : Follows net m labels)
    (hfollows' : Follows net m' (labels.set v target)) (hcolumns : m'.columns = m.columns)
    (hsizes : m'.classSize = m.classSize) (hv : labels[v]? = some source) {c' : Nat}
    (hc' : net.degreeClasses[c']? = some (net.degree v)) (c label : Nat) :
    mean m' c label + (if label = source then pull m c' c else 0) =
      mean m c label + if label = target then pull m c' c else 0 := by
  obtain ⟨hlt, -⟩ := List.getElem?_eq_some_iff.1 hc'
  have hpull : ∀ i, pull m' i c = pull m i c := by
    intro i
    rw [pull, pull, hcolumns, hsizes, hfollows.degrees_eq, hfollows'.degrees_eq]
  -- a part of class `c'` alone, as a sum over all classes
  have hsingle : ∀ a : Nat, (if label = a then pull m c' c else 0) =
      ∑ i ∈ Finset.range m.columns.size,
        pull m i c * ((if label = a then if c' = i then 1 else 0 else 0 : Nat) : K) := by
    intro a
    have hmem : c' ∈ Finset.range m.columns.size := by
      rw [Finset.mem_range, hfollows.columns.size_eq]
      exact hlt
    split
    · simp only [Nat.cast_ite, Nat.cast_one, Nat.cast_zero, mul_ite, mul_one, mul_zero]
      rw [Finset.sum_ite_eq (Finset.range m.columns.size) c' fun i => pull m i c, if_pos hmem]
    · simp
  rw [hsingle source, hsingle target, mean, mean, hcolumns, ← Finset.sum_add_distrib,
    ← Finset.sum_add_distrib]
  refine Finset.sum_congr rfl fun i hi => ?_
  rw [Finset.mem_range, hfollows.columns.size_eq] at hi
  have hdegree : net.degreeClasses[i]? = some net.degreeClasses[i] := List.getElem?_eq_getElem hi
  obtain ⟨counts, hcounts, hamount⟩ := hfollows.counts.labelCounts_eq i _ hdegree
  obtain ⟨counts', hcounts', hamount'⟩ := hfollows'.counts.labelCounts_eq i _ hdegree
  have hset := heldSum_set (inClass net net.degreeClasses[i]) hv target label
  rw [inClass_eq hc' hdegree] at hset
  rw [hpull, hcounts, hcounts', Option.getD_some, Option.getD_some, hamount, hamount', ← mul_add,
    ← mul_add, ← Nat.cast_add, ← Nat.cast_add, hset]

section Move

variable {c' size c : Nat} {column : List (Nat × K)}

theorem Summed.isSome_source (h : Summed m) (hfollows : Follows net m labels)
    (hv : labels[v]? = some source) (hc' : net.degreeClasses[c']? = some (net.degree v))
    (hcolumn : m.columns[c']? = some column) (hrow : m.rows[c]? = some row)
    (hparts : partsOf m.degrees size column c ≠ []) : (row.get? source).isSome = true := by
  obtain ⟨counts, hcounts, hamount⟩ := hfollows.counts.labelCounts_eq c' _ hc'
  refine h.isSome c row hrow c' column counts hcolumn hcounts (partsOf_ne_nil.1 hparts) source ?_
  have hle := le_heldSum (f := inClass net (net.degree v)) hv
  rw [inClass_eq hc' hc', if_pos rfl] at hle
  rw [hamount]
  exact hle

theorem Summed.value_moveParts (h : Summed m) (hfollows : Follows net m labels)
    (hfollows' : Follows net m' (labels.set v target)) (hcolumns : m'.columns = m.columns)
    (hsizes : m'.classSize = m.classSize) (hv : labels[v]? = some source)
    (hc' : net.degreeClasses[c']? = some (net.degree v)) (hsize : m.classSize[c']? = some size)
    (hcolumn : m.columns[c']? = some column) (hrow : m.rows[c]? = some row)
    (label : Nat) :
    value (moveParts source target (partsOf m.degrees size column c) row) label =
      mean m' c label := by
  have hpull : pull m c' c = (partsOf m.degrees size column c).sum := by
    rw [pull, hsize, hcolumn, Option.getD_some, Option.getD_some]
  have hentry : partsOf m.degrees size column c ≠ [] → (row.get? source).isSome = true :=
    h.isSome_source hfollows hv hc' hcolumn hrow
  have hvalue : value (moveParts source target (partsOf m.degrees size column c) row) label + _ =
    value row label + _ := Correlated.value_moveParts hentry label
  rw [h.value_eq c row hrow, ← hpull, ← mean_update hfollows hfollows' hcolumns hsizes hv hc' c
    label] at hvalue
  exact add_right_cancel hvalue

theorem Summed.isSome_moveParts (h : Summed m) (hfollows : Follows net m labels)
    (hv : labels[v]? = some source) (hc' : net.degreeClasses[c']? = some (net.degree v))
    (hcolumn : m.columns[c']? = some column) (hrow : m.rows[c]? = some row)
    {i degree : Nat} (hdegree : net.degreeClasses[i]? = some degree)
    {column' : List (Nat × K)} (hcolumn' : m.columns[i]? = some column')
    (hentry : ∃ entry ∈ column', entry.1 = c)
    (hpos : 0 < heldSum (inClass net degree) (labels.set v target) label) :
    ((moveParts source target (partsOf m.degrees size column c) row).get? label).isSome = true := by
  rw [Correlated.isSome_moveParts]
  obtain ⟨counts, hcounts, hamount⟩ := hfollows.counts.labelCounts_eq i degree hdegree
  by_cases hheld : 0 < heldSum (inClass net degree) labels label
  · left
    exact h.isSome c row hrow i column' counts hcolumn' hcounts hentry label (by rwa [hamount])
  · -- the label has come with the vertex, so the vertex is of this class
    right
    have hset := heldSum_set (inClass net degree) hv target label
    rw [inClass_eq hc' hdegree] at hset
    have htarget : label = target ∧ c' = i := by
      by_contra hnot
      have hnone : (if label = target then if c' = i then 1 else 0 else 0) = 0 := by
        split
        · rename_i hlabel
          exact if_neg fun hclass => hnot ⟨hlabel, hclass⟩
        · rfl
      omega
    obtain ⟨hlabel, rfl⟩ := htarget
    rw [hcolumn] at hcolumn'
    cases hcolumn'
    exact ⟨hlabel, partsOf_ne_nil.2 hentry⟩

end Move

/-- A move keeps the rows summed. -/
theorem Summed.update (h : Summed m) (hfollows : Follows net m labels)
    (hfollows' : Follows net m' (labels.set v target)) (hv : labels[v]? = some source)
    (hmoves : MovesRows net m m' labels v source target) : Summed m' := by
  obtain ⟨hcolumns, hsizes, c', size, column, hc', hsize, hcolumn, hrows⟩ := hmoves
  -- the row of a class before the move, and what the move makes of it
  have hbefore : ∀ (c : Nat) (row' : SortedMap Nat K compare), m'.rows[c]? = some row' →
      ∃ row, m.rows[c]? = some row ∧
        row' = if (labels.set v target).count source = 0
          then (moveParts source target (partsOf m.degrees size column c) row).erase source
          else moveParts source target (partsOf m.degrees size column c) row := by
    intro c row' hrow'
    obtain ⟨row, hrow⟩ := hfollows.exists_row hfollows' hrow'
    refine ⟨row, hrow, ?_⟩
    rw [hrows c _ hrow] at hrow'
    exact (Option.some.inj hrow').symm
  have habsent : (labels.set v target).count source = 0 → source ∉ labels.set v target :=
    List.count_eq_zero.1
  constructor
  · intro c row' hrow' label
    obtain ⟨row, hrow, rfl⟩ := hbefore c row' hrow'
    have hmoved := h.value_moveParts hfollows hfollows' hcolumns hsizes hv hc' hsize hcolumn hrow
      label
    split
    · rename_i hzero
      rw [value_erase, hmoved]
      split
      · rename_i hlabel
        rw [hlabel, hfollows'.mean_eq_zero (habsent hzero)]
      · rfl
    · exact hmoved
  · intro c row' hrow' i column' counts' hcolumn' hcounts' hentry label hpos
    obtain ⟨row, hrow, rfl⟩ := hbefore c row' hrow'
    obtain ⟨degree, hdegree⟩ := hfollows'.exists_degree hcounts'
    rw [hfollows'.amount_eq hdegree hcounts'] at hpos
    rw [hcolumns] at hcolumn'
    have hmoved : ((moveParts source target (partsOf m.degrees size column c) row).get?
        label).isSome = true :=
      h.isSome_moveParts hfollows hv hc' hcolumn hrow hdegree hcolumn' hentry hpos
    split
    · rename_i hzero
      have hlabel : label ≠ source := by
        rintro rfl
        rw [heldSum_eq_zero (habsent hzero)] at hpos
        exact Nat.lt_irrefl 0 hpos
      rwa [SortedMap.get?_erase_label, if_neg hlabel]
    · exact hmoved

/-! ## The rows that are built -/

theorem part_eq (degree : Nat) (p : K) (count size : Nat) :
    part degree p count size = (degree : K) * p / (size : K) * (count : K) := by
  rw [part]
  ring

theorem value_addParts (degree : Nat) (p : K) (size : Nat) (counts : Tally)
    (row : SortedMap Nat K compare) (label : Nat) :
    value (addParts degree p size counts row) label =
      value row label + (degree : K) * p / (size : K) * (counts.amount label : K) := by
  have key : ∀ (l : List (Nat × Nat)) (row : SortedMap Nat K compare),
      l.Pairwise (fun a b => compare a.1 b.1 = .lt) →
      value (l.foldl (fun row held => raise row held.1 (part degree p held.2 size)) row) label =
        value row label + (degree : K) * p / (size : K) *
          (((SortedMap.lookup compare label l).getD 0 : Nat) : K) := by
    intro l
    induction l with
    | nil => intro row _; simp [SortedMap.lookup]
    | cons held l ih =>
      intro row h
      obtain ⟨hheld, hl⟩ := List.pairwise_cons.1 h
      rw [List.foldl_cons, ih _ hl, value_raise, part_eq, SortedMap.lookup_cons]
      by_cases hlabel : label = held.1
      · have hnone : SortedMap.lookup compare label l = none := by
          refine SortedMap.lookup_eq_none fun e he => ?_
          rw [hlabel, hheld e he]
          decide
        rw [if_pos hlabel, if_pos (Nat.compare_eq_eq.2 hlabel), hnone]
        simp
      · rw [if_neg hlabel, if_neg fun h => hlabel (Nat.compare_eq_eq.1 h), add_zero]
  exact key counts.entries row counts.ascending

theorem addAll_row (degrees : Array Nat) {rows : Array (SortedMap Nat K compare)} {c : Nat}
    (hrow : rows[c]? = some row) (column : List (Nat × K)) (size : Nat) (counts : Tally) :
    ∃ row', (addAll degrees rows (column, size, counts))[c]? = some row' ∧
      (∀ label, value row' label =
        value row label + (partsOf degrees size column c).sum * (counts.amount label : K)) ∧
      ∀ label, (row.get? label).isSome = true ∨
          ((∃ entry ∈ column, entry.1 = c) ∧ 0 < counts.amount label) →
        (row'.get? label).isSome = true := by
  rw [addAll]
  induction column using List.reverseRecOn with
  | nil => exact ⟨row, hrow, fun label => by simp [partsOf], fun label h => by simpa using h⟩
  | append_singleton column entry ih =>
    obtain ⟨row', hrow', hvalue, hisSome⟩ := ih
    rw [List.foldl_append, List.foldl_cons, List.foldl_nil, Array.getElem?_modify, hrow',
      partsOf_concat]
    by_cases hc : entry.1 = c
    · rw [if_pos hc, if_pos hc, hc]
      refine ⟨_, rfl, fun label => ?_, fun label h => (isSome_addParts ..).2 ?_⟩
      · rw [value_addParts, hvalue, List.sum_append, List.sum_singleton]
        ring
      · rcases h with h | h
        · exact Or.inl (hisSome label (Or.inl h))
        · exact Or.inr (Tally.isSome_of_amount_pos h.2)
    · rw [if_neg hc, if_neg hc, List.append_nil]
      refine ⟨row', rfl, hvalue, fun label h => hisSome label (h.imp_right fun h => ⟨?_, h.2⟩)⟩
      obtain ⟨entry', hmem, hentry'⟩ := h.1
      rcases List.mem_append.1 hmem with hmem | hmem
      · exact ⟨entry', hmem, hentry'⟩
      · rw [List.mem_singleton.1 hmem] at hentry'
        exact absurd hentry' hc

theorem foldl_addAll_row (degrees : Array Nat) {rows : Array (SortedMap Nat K compare)} {c : Nat}
    (hrow : rows[c]? = some row) (l : List (Contribution K)) :
    ∃ row', (l.foldl (addAll degrees) rows)[c]? = some row' ∧
      (∀ label, value row' label = value row label +
        (l.map fun e => (partsOf degrees e.2.1 e.1 c).sum * (e.2.2.amount label : K)).sum) ∧
      ∀ label, (row.get? label).isSome = true ∨
          (∃ e ∈ l, (∃ entry ∈ e.1, entry.1 = c) ∧ 0 < e.2.2.amount label) →
        (row'.get? label).isSome = true := by
  induction l generalizing rows row with
  | nil => exact ⟨row, hrow, fun label => by simp, fun label h => by simpa using h⟩
  | cons e l ih =>
    obtain ⟨row', hrow', hvalue, hisSome⟩ := addAll_row degrees hrow e.1 e.2.1 e.2.2
    obtain ⟨row'', hrow'', hvalue', hisSome'⟩ := ih hrow'
    refine ⟨row'', hrow'', fun label => ?_, fun label h => hisSome' label ?_⟩
    · rw [hvalue', hvalue, List.map_cons, List.sum_cons, add_assoc]
    · rcases h with h | ⟨e', hmem, h⟩
      · exact Or.inl (hisSome label (Or.inl h))
      · rcases List.mem_cons.1 hmem with rfl | hmem
        · exact Or.inl (hisSome label (Or.inr h))
        · exact Or.inr ⟨e', hmem, h⟩

theorem sum_map_contributions (m : Correlated K) (c label : Nat) :
    ((contributions m.classSize m.columns m.labelCounts).map fun e =>
      (partsOf m.degrees e.2.1 e.1 c).sum * (e.2.2.amount label : K)).sum = mean m c label := by
  have hlist : ((contributions m.classSize m.columns m.labelCounts).map fun e =>
      (partsOf m.degrees e.2.1 e.1 c).sum * (e.2.2.amount label : K)) =
      (List.range m.columns.size).map fun i =>
        pull m i c * ((m.labelCounts[i]?.getD .empty).amount label : K) := by
    refine List.ext_getElem (by simp [contributions]) fun i hi _ => ?_
    have hlt : i < m.columns.size := by simpa [contributions] using hi
    simp [contributions, contributionOf, pull, hlt]
  rw [hlist]
  rfl

theorem summed_of_rows_eq
    (hrows : m.rows = summedRows m.degrees m.classSize m.columns m.labelCounts) : Summed m := by
  have hbuilt : ∀ (c : Nat) (row : SortedMap Nat K compare), m.rows[c]? = some row →
      (∀ label, value row label = mean m c label) ∧
      ∀ label, (∃ e ∈ contributions m.classSize m.columns m.labelCounts,
        (∃ entry ∈ e.1, entry.1 = c) ∧ 0 < e.2.2.amount label) →
          (row.get? label).isSome = true := by
    intro c row hrow
    obtain ⟨hlt, -⟩ := Array.getElem?_eq_some_iff.1 hrow
    rw [size_rows] at hlt
    have hinit : (Array.replicate m.degrees.size
        (SortedMap.empty : SortedMap Nat K compare))[c]? = some .empty := by simp [hlt]
    obtain ⟨row', hrow', hvalue, hisSome⟩ := foldl_addAll_row m.degrees hinit
      (contributions m.classSize m.columns m.labelCounts)
    rw [hrows, summedRows, hrow'] at hrow
    cases hrow
    refine ⟨fun label => ?_, fun label hlabel => hisSome label (Or.inr hlabel)⟩
    rw [hvalue, sum_map_contributions, value_eq_zero (SortedMap.get?_empty label), zero_add]
  refine ⟨fun c row hrow => (hbuilt c row hrow).1, fun c row hrow c' column counts hcolumn hcounts
    hentry label hpos => (hbuilt c row hrow).2 label ?_⟩
  refine ⟨(column, m.classSize[c']?.getD 0, counts), List.mem_map.2 ⟨(column, c'), ?_, ?_⟩, hentry,
    hpos⟩
  · rwa [List.mk_mem_zipIdx_iff_getElem?, Array.getElem?_toList]
  · rw [contributionOf, hcounts, Option.getD_some]

/-! ## Expectations depend on the labels only -/

theorem Follows.expected_unique (h : Follows net m labels) (h' : Follows net m' labels)
    (hsummed : Summed m) (hsummed' : Summed m') (degree label : Nat) :
    m.expected degree label = m'.expected degree label := by
  have hcolumns : m.columns = m'.columns := h.columns.unique h'.columns
  have hmean : ∀ c, mean m c label = mean m' c label := by
    intro c
    rw [mean, mean, hcolumns]
    refine Finset.sum_congr rfl fun i hi => ?_
    rw [Finset.mem_range, h'.columns.size_eq] at hi
    have hdegree : net.degreeClasses[i]? = some net.degreeClasses[i] := List.getElem?_eq_getElem hi
    obtain ⟨counts, hcounts, hamount⟩ := h.counts.labelCounts_eq i _ hdegree
    obtain ⟨counts', hcounts', hamount'⟩ := h'.counts.labelCounts_eq i _ hdegree
    rw [hcounts, hcounts', Option.getD_some, Option.getD_some, hamount, hamount', pull, pull,
      hcolumns, h.degrees_eq, h'.degrees_eq, h.counts.classSize_eq i _ hdegree,
      h'.counts.classSize_eq i _ hdegree]
  have hclasses : m.classOf = m'.classOf := h.classOf_eq.trans h'.classOf_eq.symm
  cases hclass : m.classOf.get? degree with
  | none => rw [expected_of_no_class hclass, expected_of_no_class (hclasses ▸ hclass)]
  | some c =>
    obtain ⟨row, hrow⟩ := exists_row_of_class hclass
    obtain ⟨row', hrow'⟩ := exists_row_of_class (hclasses ▸ hclass)
    rw [expected_of_class hclass hrow, expected_of_class (hclasses ▸ hclass) hrow']
    change value _ label = value _ label
    rw [hsummed.value_eq c _ hrow, hsummed'.value_eq c _ hrow', hmean]

end Potts.NullModel.Correlated

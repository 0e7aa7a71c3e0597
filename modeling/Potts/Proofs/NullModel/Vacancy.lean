import Potts.Proofs.NullModel.Rebuild

/-!
# Labels that no vertex holds

A null model expects nothing in a label that no vertex holds. The models that only count multiply or
divide the count zero, and this is zero as soon as the other number is an ordinary one. The
correlated model keeps sums of numbers that are rounded, so there it takes an invariant:
`OccupiedRows` says that a row has entries for labels that some vertex holds only. Building the
model enters such labels only, and a move enters the label that the vertex comes to, and takes the
entries of the label that it leaves if no vertex is left there.
-/

namespace Potts

/-! ## Zero -/

namespace Scalar

variable {F : Type} [Scalar F]

/-- A number is filed as zero; a zero with a sign is. -/
def IsZero (x : F) : Prop := order x zero = .eq

/-- Zero times a finite number is zero, and so is zero divided by a finite number other than
zero. -/
structure ZeroLaws (F : Type) [Scalar F] : Prop where
  mul : ∀ x z : F, isFinite x = true → IsZero z → IsZero (x * z)
  div : ∀ z x : F, IsZero z → isFinite x = true → ¬IsZero x → IsZero (z / x)

theorem isZero_zero : IsZero (zero : F) := Std.ReflCmp.compare_self

end Scalar

namespace NullModel

open Checked Potts.Partition Scalar

variable {F : Type} [Scalar F] {net : Network F} {labels : List Nat}
  {v source target label : Nat}

/-! ## The correlated null model -/

namespace Correlated

variable {ν : Type} {m m' : Correlated F}

/-- The maps of an array have entries for labels of the list only. -/
def OccupiedRows (labels : List Nat) (rows : Array (SortedMap Nat ν compare)) : Prop :=
  ∀ (c : Nat) (row : SortedMap Nat ν compare), rows[c]? = some row →
    ∀ label, (row.get? label).isSome = true → label ∈ labels

theorem occupiedRows_replicate (labels : List Nat) (n : Nat) :
    OccupiedRows labels (Array.replicate n (SortedMap.empty : SortedMap Nat ν compare)) := by
  intro c row hrow label hlabel
  rw [(Array.mem_replicate.1 (Array.mem_of_getElem? hrow)).2] at hlabel
  cases hlabel

theorem OccupiedRows.modify {rows : Array (SortedMap Nat ν compare)} (h : OccupiedRows labels rows)
    (c : Nat) {f : SortedMap Nat ν compare → SortedMap Nat ν compare}
    (hf : ∀ row label, ((f row).get? label).isSome = true →
      (row.get? label).isSome = true ∨ label ∈ labels) :
    OccupiedRows labels (rows.modify c f) := by
  intro c' row' hrow' label hlabel
  rw [Array.getElem?_modify] at hrow'
  cases hrow : rows[c']? with
  | none => simp [hrow] at hrow'
  | some row =>
    rw [hrow, Option.map_some] at hrow'
    split at hrow'
    · rw [← Option.some.inj hrow'] at hlabel
      exact (hf row label hlabel).elim (h c' row hrow label) id
    · rw [← Option.some.inj hrow'] at hlabel
      exact h c' row hrow label hlabel

/-! ### Building -/

theorem occupiedRows_countVertex {classOf : SortedMap Nat Nat compare}
    {counts counts' : Array Nat × Array Tally}
    (h : labels.zipIdx.foldlM (countVertex net classOf) counts = .ok counts')
    (hcounts : OccupiedRows labels counts.2) : OccupiedRows labels counts'.2 := by
  refine of_foldlM_eq_ok (Q := fun counts => OccupiedRows labels counts.2) h hcounts ?_
  intro held hheld counts counts' hcounts hstep
  simp only [countVertex, bind_eq_ok] at hstep
  obtain ⟨c, -, sizes, -, labelCounts, hlabelCounts, hstep⟩ := hstep
  obtain ⟨-, rfl⟩ := eq_modify_of_modify_eq_ok hlabelCounts
  cases hstep
  refine hcounts.modify c fun row label hlabel => ?_
  rw [Tally.raise, SortedMap.get?_alter_label] at hlabel
  split at hlabel
  · rename_i heq
    rw [heq]
    exact Or.inr (List.fst_mem_of_mem_zipIdx hheld)
  · exact Or.inl hlabel

theorem OccupiedRows.addAll {rows : Array (SortedMap Nat F compare)}
    (h : OccupiedRows labels rows) (degrees : Array Nat) {source : Contribution F}
    (hsource : ∀ label, (SortedMap.get? source.2.2 label).isSome = true → label ∈ labels) :
    OccupiedRows labels (Correlated.addAll degrees rows source) := by
  rw [Correlated.addAll]
  generalize source.1 = entries
  induction entries generalizing rows with
  | nil => exact h
  | cons entry entries ih =>
    refine ih (h.modify entry.1 fun row label hlabel => ?_)
    exact ((isSome_addParts ..).1 hlabel).imp_right (hsource label)

theorem OccupiedRows.foldl_addAll {rows : Array (SortedMap Nat F compare)}
    (h : OccupiedRows labels rows) (degrees : Array Nat) {sources : List (Contribution F)}
    (hsources : ∀ source ∈ sources, ∀ label,
      (SortedMap.get? source.2.2 label).isSome = true → label ∈ labels) :
    OccupiedRows labels (sources.foldl (Correlated.addAll degrees) rows) := by
  induction sources generalizing rows with
  | nil => exact h
  | cons source sources ih =>
    exact ih (h.addAll degrees (hsources source List.mem_cons_self)) fun source' hsource' =>
      hsources source' (List.mem_cons_of_mem source hsource')

theorem OccupiedRows.summedRows {labelCounts : Array Tally}
    (h : OccupiedRows labels labelCounts) (degrees classSize : Array Nat)
    (columns : Array (List (Nat × F))) :
    OccupiedRows labels (Correlated.summedRows degrees classSize columns labelCounts) := by
  refine (occupiedRows_replicate labels degrees.size).foldl_addAll degrees ?_
  intro source hsource label hlabel
  obtain ⟨⟨column, c⟩, -, rfl⟩ := List.mem_map.1 hsource
  cases hcounts : labelCounts[c]? with
  | none => simp [contributionOf, hcounts] at hlabel
  | some counts =>
    refine h c counts hcounts label ?_
    simpa only [contributionOf, hcounts, Option.getD_some] using hlabel

theorem occupiedRows_ofLabels (hlabels : labels.length = net.size)
    (h : ofLabels net labels = .ok m) : OccupiedRows labels m.rows := by
  have hrows := ((yields_ofLabels hlabels).of_eq_ok h).2
  simp only [ofLabels, ofClasses, bind_eq_ok] at h
  obtain ⟨⟨classSize, labelCounts⟩, hcounts, ends, -, columns, -, rows, -, h⟩ := h
  cases h
  rw [hrows]
  exact (occupiedRows_countVertex hcounts (occupiedRows_replicate labels _)).summedRows _ _ _

/-! ### Moving -/

/-- A move keeps the rows to the labels that some vertex holds: the label that the vertex comes to
is held, and a label that is left empty loses its entries. -/
theorem OccupiedRows.update (h : OccupiedRows labels m.rows)
    (hfollows : Follows net m labels) (hfollows' : Follows net m' (labels.set v target))
    (hv : labels[v]? = some source)
    (hmoves : MovesRows net m m' labels v source target) :
    OccupiedRows (labels.set v target) m'.rows := by
  obtain ⟨c', size, column, -, -, -, hrows⟩ := hmoves.rows_eq
  obtain ⟨hlt, -⟩ := List.getElem?_eq_some_iff.1 hv
  intro c row' hrow' label hlabel
  obtain ⟨row, hrow⟩ := hfollows.exists_row hfollows' hrow'
  rw [hrows c row hrow] at hrow'
  cases hrow'
  -- before entries go, those of the moved row are the old ones and that of the new label
  have hmoved : ∀ label, ((moveParts source target (partsOf m.degrees size column c) row).get?
      label).isSome = true → label ≠ source → label ∈ labels.set v target := by
    intro label hsome hne
    rcases (isSome_moveParts source target _ row label).1 hsome with hold | ⟨rfl, -⟩
    · exact mem_set_of_ne hv (h c row hrow label hold) hne
    · exact List.mem_set hlt label
  by_cases hsource : label = source
  · subst hsource
    by_contra habsent
    rw [if_pos (List.count_eq_zero.2 habsent), SortedMap.get?_erase_label, if_pos rfl] at hlabel
    cases hlabel
  · refine hmoved label ?_ hsource
    split at hlabel
    · rwa [SortedMap.get?_erase_label, if_neg hsource] at hlabel
    · exact hlabel

theorem OccupiedRows.expected_eq_zero (h : OccupiedRows labels m.rows)
    (hlabel : label ∉ labels) (degree : Nat) : m.expected degree label = zero := by
  rw [expected_eq_cell?]
  cases hclass : m.classOf.get? degree with
  | none => rfl
  | some c =>
    rw [Option.bind_some, cell?]
    cases hrow : m.rows[c]? with
    | none => rfl
    | some row =>
      rw [Option.bind_some]
      cases hget : row.get? label with
      | none => rfl
      | some x => exact absurd (h c row hrow label (by rw [hget]; rfl)) hlabel

end Correlated

/-! ## All null models -/

variable {kind : Kind} {m : NullModel F}

/-- A model of this kind keeps the numbers of the labels, and no more than they need. -/
structure Trim (kind : Kind) (net : Network F) (m : NullModel F) (labels : List Nat) : Prop where
  kind_eq : m.kind = kind
  follows : Follows net m labels
  occupied : ∀ c, m = .correlated c → Correlated.OccupiedRows labels c.rows

theorem persists_trim (kind : Kind) (net : Network F) : Persists kind net (Trim kind net) where
  ofLabels labels hlabels := by
    obtain ⟨m, hm, hkind, hfollows⟩ := yields_ofLabels kind hlabels
    refine ⟨m, hm, hkind, hfollows, ?_⟩
    rintro c rfl
    cases kind with
    | independent => cases hkind
    | uncorrelated => cases hkind
    | correlated =>
      obtain ⟨c', hc', hfollows', -⟩ := Correlated.yields_ofLabels hlabels
      rw [NullModel.ofLabels, hc'] at hm
      cases hm
      exact Correlated.occupiedRows_ofLabels hlabels hc'
  update m labels v source target h hv := by
    obtain ⟨m', hm', hkind, hfollows, -⟩ := h.follows.yields_update hv target
    refine ⟨m', hm', hkind.trans h.kind_eq, hfollows, ?_⟩
    rintro c' rfl
    cases m with
    | independent m => cases hkind
    | uncorrelated m => cases hkind
    | correlated c =>
      have hfollows : Correlated.Follows net c labels := h.follows
      obtain ⟨c'', hc'', hfollows', hmoves⟩ := hfollows.yields_update hv target
      rw [update, hc''] at hm'
      cases hm'
      exact (h.occupied c rfl).update hfollows hfollows' hv hmoves

/-- The number by which a model of this kind scales its counts is an ordinary one: the density is
finite, and the sum of the degrees, if there are edges, is finite and is not zero as a number. -/
def Kind.Scales (kind : Kind) (net : Network F) : Prop :=
  match kind with
  | .independent => isFinite (Independent.ofLabels net []).density = true
  | .uncorrelated => net.totalDegree ≠ 0 →
      isFinite (net.totalDegree : F) = true ∧ ¬IsZero (net.totalDegree : F)
  | .correlated => True

theorem Trim.isZero_expected (h : Trim kind net m labels) (laws : ZeroLaws F)
    (hscales : kind.Scales net) (hlabel : label ∉ labels) (degree : Nat) :
    IsZero (m.expected degree label) := by
  have hfollows := h.follows
  have hkind := h.kind_eq
  cases m with
  | independent m =>
    subst hkind
    have hcount : labels.count label = 0 := List.count_eq_zero.2 hlabel
    change IsZero (m.expected label)
    rw [Independent.Follows.expected_eq hfollows, hcount]
    exact laws.mul _ _ hscales isZero_zero
  | uncorrelated m =>
    subst hkind
    change IsZero (m.expected degree label : F)
    rw [Uncorrelated.Follows.expected_eq hfollows, heldSum_eq_zero hlabel, Nat.mul_zero]
    split
    · exact isZero_zero
    · rename_i htotal
      obtain ⟨hfinite, hne⟩ := hscales htotal
      exact laws.div _ _ isZero_zero hfinite hne
  | correlated m =>
    change IsZero (m.expected degree label)
    rw [(h.occupied m rfl).expected_eq_zero hlabel]
    exact isZero_zero

theorem Trim.expected_eq_zero (h : Trim .correlated net m labels) (hlabel : label ∉ labels)
    (degree : Nat) : m.expected degree label = zero := by
  have hkind := h.kind_eq
  cases m with
  | independent m => cases hkind
  | uncorrelated m => cases hkind
  | correlated m => exact (h.occupied m rfl).expected_eq_zero hlabel degree

end NullModel

end Potts

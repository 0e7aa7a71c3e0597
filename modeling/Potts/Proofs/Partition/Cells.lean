import Potts.Proofs.Partition.Modularity

/-!
# Modularity depends on the partition only

Two lists of labels describe the same partition if they agree on which vertices have the same label.
The cells of the partition, which are the sets of vertices that hold one label, are then the same,
and so are the degree sums of the communities but for their order, as a tally keeps them in the
order of the labels. Modularity sorts them, and adds up the edges inside communities in the order of
the edges; so it is the same number, whatever the arithmetic is.
-/

namespace Potts.Partition

variable {labels labels' : List Nat} {label : Nat}

/-- The same vertices share their labels. -/
structure SamePartition (labels labels' : List Nat) : Prop where
  length_eq : labels'.length = labels.length
  getElem?_eq_iff : ∀ u < labels.length, ∀ v < labels.length,
    (labels'[u]? = labels'[v]? ↔ labels[u]? = labels[v]?)

/-! ## Cells -/

/-- The vertices that hold a label. -/
def cellOf (labels : List Nat) (label : Nat) : Finset Nat :=
  {v ∈ Finset.range labels.length | labels[v]? = some label}

/-- The cells of a partition: for every vertex the vertices with its label. -/
def cells (labels : List Nat) : Finset (Finset Nat) :=
  (Finset.range labels.length).image fun v =>
    {u ∈ Finset.range labels.length | labels[u]? = labels[v]?}

theorem SamePartition.cells_eq (h : SamePartition labels labels') :
    cells labels' = cells labels := by
  rw [cells, cells, h.length_eq]
  refine Finset.image_congr fun v hv => Finset.filter_congr fun u hu => ?_
  exact h.getElem?_eq_iff u (Finset.mem_range.1 hu) v (Finset.mem_range.1 hv)

theorem exists_getElem?_of_mem (h : label ∈ labels) :
    ∃ v < labels.length, labels[v]? = some label := by
  obtain ⟨v, hv⟩ := List.mem_iff_getElem?.1 h
  exact ⟨v, (List.getElem?_eq_some_iff.1 hv).1, hv⟩

theorem image_cellOf (labels : List Nat) :
    labels.toFinset.image (cellOf labels) = cells labels := by
  ext cell
  rw [cells, Finset.mem_image, Finset.mem_image]
  constructor
  · rintro ⟨label, hlabel, rfl⟩
    obtain ⟨v, hlt, hv⟩ := exists_getElem?_of_mem (List.mem_toFinset.1 hlabel)
    exact ⟨v, Finset.mem_range.2 hlt, by rw [hv, cellOf]⟩
  · rintro ⟨v, hv, rfl⟩
    have hget := List.getElem?_eq_getElem (Finset.mem_range.1 hv)
    refine ⟨_, List.mem_toFinset.2 (List.mem_of_getElem? hget), ?_⟩
    rw [hget, cellOf]

theorem injOn_cellOf (labels : List Nat) : Set.InjOn (cellOf labels) labels.toFinset := by
  intro label hlabel label' _ heq
  obtain ⟨v, hlt, hv⟩ := exists_getElem?_of_mem (List.mem_toFinset.1 hlabel)
  have hmem : v ∈ cellOf labels label' := by
    rw [← heq, cellOf, Finset.mem_filter, Finset.mem_range]
    exact ⟨hlt, hv⟩
  rw [cellOf, Finset.mem_filter, hv] at hmem
  exact Option.some.inj hmem.2

/-! ## Modularity -/

section Modularity

variable {F : Type} [Scalar F] {net : Network F}

theorem coe_values_communityDegrees (net : Network F) (labels : List Nat) :
    (SortedMap.values (communityDegrees net labels) : Multiset Nat) =
      (cells labels).val.map fun cell => ∑ v ∈ cell, net.degree v := by
  have hkeys : (SortedMap.keys (communityDegrees net labels) : Multiset Nat) =
      labels.toFinset.val := by
    rw [← Tally.toFinset_keys (contains_communityDegrees net labels), List.toFinset_val,
      (SortedMap.nodup_keys _).dedup]
  rw [Tally.values_eq, ← Multiset.map_coe, hkeys, ← image_cellOf,
    Finset.image_val_of_injOn (injOn_cellOf labels), Multiset.map_map]
  exact Multiset.map_congr rfl fun label _ => amount_communityDegrees net labels label

theorem SamePartition.perm_values (h : SamePartition labels labels') (net : Network F) :
    (SortedMap.values (communityDegrees net labels')).Perm
      (SortedMap.values (communityDegrees net labels)) := by
  rw [← Multiset.coe_eq_coe, coe_values_communityDegrees, coe_values_communityDegrees, h.cells_eq]

theorem expectedWeight_perm {sums sums' : List Nat} (h : sums'.Perm sums) :
    expectedWeight net sums' = expectedWeight net sums := by
  have hsorted : sums'.mergeSort = sums.mergeSort := by
    have hperm : sums'.mergeSort.Perm sums.mergeSort :=
      (List.mergeSort_perm _ _).trans (h.trans (List.mergeSort_perm _ _).symm)
    exact hperm.eq_of_sortedLE List.sortedLE_mergeSort List.sortedLE_mergeSort
  rw [expectedWeight, expectedWeight, hsorted]

theorem SamePartition.internalWeight_eq (h : SamePartition labels labels')
    (hlabels : labels.length = net.size) :
    internalWeight net labels'.toArray = internalWeight net labels.toArray := by
  rw [internalWeight, internalWeight]
  refine congrArg (fun inside : List (Edge F) =>
    Scalar.sum (inside.map fun e => Scalar.two * e.weight)) ?_
  refine List.filter_congr fun e he => ?_
  have hiff := h.getElem?_eq_iff e.source (hlabels ▸ net.source_lt he) e.target
    (hlabels ▸ net.target_lt he)
  rw [List.getElem?_toArray, List.getElem?_toArray, List.getElem?_toArray, List.getElem?_toArray,
    Bool.eq_iff_iff, beq_iff_eq, beq_iff_eq, hiff]

theorem SamePartition.modularity_eq (h : SamePartition labels labels') (net : Network F) :
    modularity net labels' = modularity net labels := by
  by_cases hlabels : labels.length = net.size
  · have hsize : SortedMap.size (communityDegrees net labels') =
        SortedMap.size (communityDegrees net labels) := by
      have hlength := (h.perm_values net).length_eq
      rwa [SortedMap.values, SortedMap.values, List.length_map, List.length_map] at hlength
    simp only [modularity, h.length_eq, hsize, h.internalWeight_eq hlabels,
      expectedWeight_perm (h.perm_values net)]
  · rw [modularity, modularity, h.length_eq, if_pos hlabels, if_pos hlabels]

end Modularity

end Potts.Partition

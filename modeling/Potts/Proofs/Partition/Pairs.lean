import Potts.Proofs.Partition.Range

/-!
# Modularity as a sum over pairs of vertices

In exact arithmetic the modularity of a partition is

  `1 / 2W * Σ (A(i, j) - k(i) k(j) / 2m)`

over all ordered pairs of vertices in one community, a vertex with itself included, where `A(i, j)`
is the weight of the edges between the two. The sum over the edges is counted once for each
direction of an edge, and the square of the degree sum of a community is expanded into the products
of the degrees of its pairs.
-/

namespace Potts

/-- Whether an edge joins two vertices, in either direction. -/
def Edge.Joins {F : Type} (e : Edge F) (i j : Nat) : Prop :=
  (e.source = i ∧ e.target = j) ∨ (e.source = j ∧ e.target = i)

instance {F : Type} (e : Edge F) (i j : Nat) : Decidable (e.Joins i j) := by
  unfold Edge.Joins
  infer_instance

/-- The weight of the edges between two vertices. -/
def Network.weightBetween {K : Type} [ExactScalar K] (net : Network K) (i j : Nat) : K :=
  (net.edges.map fun e => if e.Joins i j then e.weight else 0).sum

namespace Partition

/-- The ordered pairs of vertices that hold the same label. -/
def samePairs (labels : List Nat) : Finset (Nat × Nat) :=
  {p ∈ Finset.range labels.length ×ˢ Finset.range labels.length | labels[p.1]? = labels[p.2]?}

variable {labels : List Nat} {i j : Nat}

theorem mem_samePairs : (i, j) ∈ samePairs labels ↔
    i < labels.length ∧ j < labels.length ∧ labels[i]? = labels[j]? := by
  rw [samePairs, Finset.mem_filter, Finset.mem_product, Finset.mem_range, Finset.mem_range,
    and_assoc]

theorem sum_sq_heldSum (f : Nat → Nat) (labels : List Nat) :
    ∑ label ∈ labels.toFinset, heldSum f labels label ^ 2 =
      ∑ p ∈ samePairs labels, f p.1 * f p.2 := by
  have hsq : ∀ label, heldSum f labels label ^ 2 = ∑ i ∈ Finset.range labels.length,
      if labels[i]? = some label then f i * heldSum f labels label else 0 := by
    intro label
    rw [sq]
    nth_rewrite 1 [heldSum_eq_sum_ite]
    rw [Finset.sum_mul]
    simp only [ite_mul, zero_mul]
  rw [Finset.sum_congr rfl fun label _ => hsq label, Finset.sum_comm, samePairs, Finset.sum_filter,
    Finset.sum_product]
  refine Finset.sum_congr rfl fun i hi => ?_
  -- the label of the first vertex is the one whose square it has a part in
  have hlt := Finset.mem_range.1 hi
  have hmem : labels[i] ∈ labels.toFinset := List.mem_toFinset.2 (List.getElem_mem hlt)
  simp only [List.getElem?_eq_getElem hlt, Option.some.injEq, Finset.sum_ite_eq, hmem, if_true]
  rw [heldSum_eq_sum_ite, Finset.mul_sum]
  refine Finset.sum_congr rfl fun j _ => ?_
  rw [mul_ite, mul_zero]
  exact if_congr eq_comm rfl rfl

section Exact

variable {K : Type} [ExactScalar K] {net : Network K}

theorem sum_joins (hlabels : labels.length = net.size) {e : Edge K} (he : e ∈ net.edges) :
    ∑ p ∈ samePairs labels, (if e.Joins p.1 p.2 then e.weight else 0) = insideWeight labels e := by
  have hsource : e.source < labels.length := hlabels ▸ net.source_lt he
  have htarget : e.target < labels.length := hlabels ▸ net.target_lt he
  have hne : e.source ≠ e.target := (net.edges_valid e he).1
  have hjoins : (samePairs labels).filter (fun p => e.Joins p.1 p.2) =
      if labels[e.source]? = labels[e.target]? then
        {(e.source, e.target), (e.target, e.source)} else ∅ := by
    ext ⟨i, j⟩
    rw [Finset.mem_filter, mem_samePairs, Edge.Joins]
    split
    · rename_i hsame
      rw [Finset.mem_insert, Finset.mem_singleton, Prod.mk.injEq, Prod.mk.injEq]
      constructor
      · rintro ⟨-, ⟨rfl, rfl⟩ | ⟨rfl, rfl⟩⟩
        · exact Or.inl ⟨rfl, rfl⟩
        · exact Or.inr ⟨rfl, rfl⟩
      · rintro (⟨rfl, rfl⟩ | ⟨rfl, rfl⟩)
        · exact ⟨⟨hsource, htarget, hsame⟩, Or.inl ⟨rfl, rfl⟩⟩
        · exact ⟨⟨htarget, hsource, hsame.symm⟩, Or.inr ⟨rfl, rfl⟩⟩
    · rename_i hother
      refine iff_of_false ?_ (Finset.notMem_empty _)
      rintro ⟨⟨-, -, hsame⟩, ⟨rfl, rfl⟩ | ⟨rfl, rfl⟩⟩
      · exact hother hsame
      · exact hother hsame.symm
  rw [← Finset.sum_filter, hjoins, insideWeight]
  split
  · have hpair : (e.source, e.target) ≠ (e.target, e.source) := fun h => hne (Prod.mk.inj h).1
    rw [Finset.sum_pair hpair, ← two_mul, Scalar.two_eq]
  · exact Finset.sum_empty

theorem sum_weightBetween (hlabels : labels.length = net.size) :
    ∑ p ∈ samePairs labels, net.weightBetween p.1 p.2 =
      (net.edges.map (insideWeight labels)).sum := by
  simp only [Network.weightBetween]
  rw [← sum_map_sum]
  exact congrArg List.sum (List.map_congr_left fun e he => sum_joins hlabels he)

/-- The excess of a partition, pair by pair. -/
theorem excess_eq_sum_pairs (hlabels : labels.length = net.size) :
    excess net labels = ∑ p ∈ samePairs labels,
      (net.weightBetween p.1 p.2 - net.degree p.1 * net.degree p.2 / (2 * net.edgeCount)) := by
  have htotal : (net.totalDegree : K) = 2 * net.edgeCount := by
    rw [Network.totalDegree, Nat.cast_mul, Nat.cast_ofNat]
  have hsquares : squaredDegrees net labels =
      ∑ p ∈ samePairs labels, (net.degree p.1 : K) * net.degree p.2 := by
    rw [squaredDegrees]
    exact_mod_cast congrArg (Nat.cast : Nat → K) (sum_sq_heldSum net.degree labels)
  rw [Finset.sum_sub_distrib, sum_weightBetween hlabels, ← Finset.sum_div, ← hsquares, ← htotal,
    excess]

/-- The modularity of a partition into two communities or more, and of any partition where every
edge weighs one, compares the weight between the vertices of every pair in a community with what
their degrees let one expect. -/
theorem modularity_eq_sum_pairs (hlabels : labels.length = net.size) (hweight : 0 < net.totalWeight)
    (h : 2 ≤ labels.toFinset.card ∨ ∀ e ∈ net.edges, e.weight = 1) :
    modularity net labels = .ok (1 / (2 * net.totalWeight) * ∑ p ∈ samePairs labels,
      (net.weightBetween p.1 p.2 - net.degree p.1 * net.degree p.2 / (2 * net.edgeCount))) := by
  rw [modularity_eq hlabels hweight h, excess_eq_sum_pairs hlabels, one_div_mul_eq_div]

theorem modularity_eq_sum_pairs_path :
    [0, 1, 0].length = Network.path.size ∧ 0 < Network.path.totalWeight ∧
      2 ≤ [0, 1, 0].toFinset.card ∧
      samePairs [0, 1, 0] = {(0, 0), (0, 2), (2, 0), (2, 2), (1, 1)} ∧
      modularity Network.path [0, 1, 0] = .ok (1 / (2 * Network.path.totalWeight) *
        ∑ p ∈ samePairs [0, 1, 0], (Network.path.weightBetween p.1 p.2 -
          Network.path.degree p.1 * Network.path.degree p.2 / (2 * Network.path.edgeCount))) := by
  have hlabels : [0, 1, 0].length = Network.path.size := rfl
  have hpos : 0 < Network.path.totalWeight := by
    rw [totalWeight_of_unit (by simp [Network.path])]
    exact two_pos
  have hcard : 2 ≤ [0, 1, 0].toFinset.card := by decide
  exact ⟨hlabels, hpos, hcard, by decide,
    modularity_eq_sum_pairs hlabels hpos (Or.inl hcard)⟩

end Exact

end Partition

end Potts

import Mathlib.Algebra.BigOperators.Field
import Mathlib.Tactic.FieldSimp
import Mathlib.Tactic.Linarith
import Potts.Partition.Modularity
import Potts.Proofs.Graph.Links
import Potts.Proofs.Partition.Population
import Potts.Proofs.Scalar.Exact

/-!
# Modularity as a sum over edges and communities

The community degrees are the degree sums over the vertices that hold a label, and networks with the
same links give a partition the same modularity. In exact arithmetic this is the excess of the
partition over `2W`, where the excess is a sum over the edges less a sum over the communities. For a
partition with one community the modularity is zero by definition; where every edge weighs one this
is what the formula says too.
-/

namespace Potts

/-! ## Sums over the entries of a tally -/

namespace Tally

variable {t : Tally} {held : Finset Nat}

theorem toFinset_keys (h : ∀ label, SortedMap.contains t label = true ↔ label ∈ held) :
    (SortedMap.keys t).toFinset = held := by
  ext label
  rw [List.mem_toFinset, SortedMap.mem_keys, h]

theorem size_eq_card (h : ∀ label, SortedMap.contains t label = true ↔ label ∈ held) :
    SortedMap.size t = held.card := by
  rw [← toFinset_keys h, List.toFinset_card_of_nodup (SortedMap.nodup_keys t), SortedMap.size,
    SortedMap.keys, List.length_map]

theorem values_eq (t : Tally) : SortedMap.values t = (SortedMap.keys t).map t.amount := by
  rw [SortedMap.values, SortedMap.keys, List.map_map]
  refine List.map_congr_left fun e he => ?_
  exact (amount_eq (SortedMap.get?_of_mem_self he)).symm

theorem sum_map_values {M : Type} [AddCommMonoid M] (f : Nat → M)
    (h : ∀ label, SortedMap.contains t label = true ↔ label ∈ held) :
    ((SortedMap.values t).map f).sum = ∑ label ∈ held, f (t.amount label) := by
  rw [values_eq, List.map_map, ← toFinset_keys h, List.sum_toFinset _ (SortedMap.nodup_keys t)]
  rfl

end Tally

namespace Partition

/-! ## Community degrees -/

section Communities

variable {F : Type} [Scalar F] (net : Network F) (labels : List Nat) (label : Nat)

theorem communityDegrees_concat (a : Nat) :
    communityDegrees net (labels ++ [a]) =
      (communityDegrees net labels).raise a (net.degree labels.length) := by
  rw [communityDegrees, communityDegrees, List.zipIdx_append, List.foldl_append]
  simp

theorem amount_communityDegrees :
    (communityDegrees net labels).amount label = heldSum net.degree labels label := by
  induction labels using List.reverseRecOn with
  | nil => rfl
  | append_singleton labels a ih =>
    rw [communityDegrees_concat, Tally.amount_raise, ih, heldSum_concat]

theorem contains_communityDegrees :
    SortedMap.contains (communityDegrees net labels) label = true ↔ label ∈ labels.toFinset := by
  rw [List.mem_toFinset]
  induction labels using List.reverseRecOn with
  | nil => simp [communityDegrees, SortedMap.contains]
  | append_singleton labels a ih =>
    rw [communityDegrees_concat, SortedMap.contains, Tally.raise, SortedMap.get?_alter_label,
      List.mem_append, List.mem_singleton, ← ih]
    by_cases h : label = a
    · simp [h]
    · rw [if_neg h, or_iff_left h, SortedMap.contains]

theorem size_communityDegrees : SortedMap.size (communityDegrees net labels) =
    labels.toFinset.card :=
  Tally.size_eq_card (contains_communityDegrees net labels)

theorem exists_modularity (hlabels : labels.length = net.size) :
    ∃ q, modularity net labels = .ok q := by
  rw [modularity, if_neg (not_not.2 hlabels)]
  dsimp only
  split
  · exact ⟨_, rfl⟩
  · split <;> exact ⟨_, rfl⟩

theorem internalWeight_sameLinks {net net' : Network F} (h : net.SameLinks net')
    (labels : Array Nat) : internalWeight net' labels = internalWeight net labels := by
  have hinside : ∀ e e' : Edge F, e.SameLink e' → ((labels[e.source]? == labels[e.target]?) = true ↔
      (labels[e'.source]? == labels[e'.target]?) = true) := by
    intro e e' hlink
    rcases hlink.eq_or_eq_reverse with rfl | rfl
    · rfl
    · rw [Edge.reverse, beq_iff_eq, beq_iff_eq, eq_comm]
  rw [internalWeight, internalWeight]
  refine congrArg Scalar.sum (map_eq_map_of_forall₂ (List.rel_filter ?_ h.edges) ?_)
  · exact fun e e' hlink => hinside e e' hlink
  · exact fun e e' hlink => congrArg (Scalar.two * ·) hlink.1

theorem modularity_sameLinks {net net' : Network F} (h : net.SameLinks net')
    (labels : List Nat) : modularity net' labels = modularity net labels := by
  have hdegrees : communityDegrees net' labels = communityDegrees net labels := by
    rw [communityDegrees, communityDegrees, h.degree_eq]
  have hexpected : expectedWeight net' = expectedWeight net := by
    funext sums
    rw [expectedWeight, expectedWeight, h.totalDegree_eq]
  simp only [modularity, h.size_eq, h.edgeCount_eq, h.totalWeight_eq, hdegrees,
    internalWeight_sameLinks h, hexpected]

end Communities

/-! ## Modularity in exact arithmetic -/

section Exact

variable {K : Type} [ExactScalar K] {net : Network K} {labels : List Nat}

/-- Twice the weight of an edge inside a community, and nothing for the other edges. -/
def insideWeight (labels : List Nat) (e : Edge K) : K :=
  if labels[e.source]? = labels[e.target]? then Scalar.two * e.weight else 0

/-- The sum of the squared degrees of the communities. -/
def squaredDegrees (net : Network K) (labels : List Nat) : K :=
  ∑ label ∈ labels.toFinset, (heldSum net.degree labels label : K) ^ 2

/-- How much more weight lies inside the communities than the degrees let one expect. -/
def excess (net : Network K) (labels : List Nat) : K :=
  (net.edges.map (insideWeight labels)).sum - squaredDegrees net labels / (net.totalDegree : K)

theorem internalWeight_eq (net : Network K) (labels : List Nat) :
    internalWeight net labels.toArray = (net.edges.map (insideWeight labels)).sum := by
  rw [internalWeight, Scalar.sum_eq]
  induction net.edges with
  | nil => rfl
  | cons e edges ih =>
    rw [List.map_cons, List.sum_cons, ← ih, insideWeight, List.filter_cons]
    simp only [List.getElem?_toArray, beq_iff_eq]
    split <;> simp

theorem expectedWeight_eq (net : Network K) (labels : List Nat) :
    expectedWeight net (SortedMap.values (communityDegrees net labels)) =
      squaredDegrees net labels / (net.totalDegree : K) := by
  rw [expectedWeight, Scalar.sum_eq, squaredDegrees]
  congr 1
  have hperm := (List.mergeSort_perm (SortedMap.values (communityDegrees net labels))
    fun a b => decide (a ≤ b)).map fun k : Nat => (k : K) * (k : K)
  rw [hperm.sum_eq, Tally.sum_map_values _ (contains_communityDegrees net labels)]
  refine Finset.sum_congr rfl fun label _ => ?_
  rw [amount_communityDegrees, sq]

theorem totalWeight_eq_sum (net : Network K) :
    net.totalWeight = (net.edges.map Edge.weight).sum := by
  rw [net.totalWeight_eq, Scalar.sum_eq]

theorem edgeCount_pos (h : 0 < net.totalWeight) : 0 < net.edgeCount := by
  rw [totalWeight_eq_sum] at h
  rw [Network.edgeCount, List.length_pos_iff]
  intro hnil
  rw [hnil] at h
  exact lt_irrefl _ h

theorem excess_replicate (hunit : ∀ e ∈ net.edges, e.weight = 1) (hedges : 0 < net.edgeCount)
    (label : Nat) : excess net (List.replicate net.size label) = 0 := by
  have hinside : net.edges.map (insideWeight (List.replicate net.size label)) =
      net.edges.map fun _ => (2 : K) := by
    refine List.map_congr_left fun e he => ?_
    rw [insideWeight, List.getElem?_replicate, List.getElem?_replicate, if_pos (net.source_lt he),
      if_pos (net.target_lt he), if_pos rfl, hunit e he, mul_one, Scalar.two_eq]
  have hsize : net.size ≠ 0 := by
    obtain ⟨e, he⟩ := List.exists_mem_of_length_pos hedges
    exact Nat.ne_of_gt (lt_of_le_of_lt (Nat.zero_le _) (net.source_lt he))
  have hdegrees : heldSum net.degree (List.replicate net.size label) label = net.totalDegree := by
    rw [← net.sum_degree, heldSum_eq_sum_ite, List.length_replicate]
    refine Finset.sum_congr rfl fun v hv => ?_
    rw [List.getElem?_replicate, if_pos (Finset.mem_range.1 hv), if_pos rfl]
  have htotal : (net.totalDegree : K) ≠ 0 := by
    rw [Nat.cast_ne_zero, Network.totalDegree]
    omega
  rw [excess, hinside, squaredDegrees, List.toFinset_replicate_of_ne_zero hsize,
    Finset.sum_singleton, hdegrees, sq, mul_div_assoc, div_self htotal, mul_one, sub_eq_zero,
    List.map_const', List.sum_replicate, Network.totalDegree, Network.edgeCount, nsmul_eq_mul,
    mul_comm, Nat.cast_mul, Nat.cast_ofNat]

theorem exists_eq_replicate (hcard : labels.toFinset.card < 2) :
    ∃ label, labels = List.replicate labels.length label := by
  cases labels with
  | nil => exact ⟨0, rfl⟩
  | cons a labels =>
    refine ⟨a, List.eq_replicate_of_mem fun label hlabel => ?_⟩
    have hone := Finset.card_le_one.1 (Nat.le_of_lt_succ hcard)
    exact hone label (List.mem_toFinset.2 hlabel) a (List.mem_toFinset.2 List.mem_cons_self)

/-- The modularity of a partition with two communities, and of any partition where every edge
weighs one, is its excess over twice the total weight. -/
theorem modularity_eq (hlabels : labels.length = net.size) (hweight : 0 < net.totalWeight)
    (h : 2 ≤ labels.toFinset.card ∨ ∀ e ∈ net.edges, e.weight = 1) :
    modularity net labels = .ok (excess net labels / (2 * net.totalWeight)) := by
  have hedges := edgeCount_pos hweight
  have hzero : ¬(net.edgeCount = 0 ∨ (net.totalWeight == Scalar.zero) = true) := by
    rintro (h | h)
    · omega
    · rw [Scalar.zero_eq] at h
      exact hweight.ne' (of_decide_eq_true h)
  rw [modularity, if_neg (not_not.2 hlabels), if_neg hzero]
  dsimp only
  rw [size_communityDegrees]
  split
  · rename_i hcard
    have hunit := h.resolve_left (by omega)
    obtain ⟨label, hlabel⟩ := exists_eq_replicate hcard
    rw [hlabel, hlabels, excess_replicate hunit hedges, zero_div, Scalar.zero_eq]
  · rw [internalWeight_eq, expectedWeight_eq, Scalar.two_eq, excess]

end Exact

end Partition

end Potts

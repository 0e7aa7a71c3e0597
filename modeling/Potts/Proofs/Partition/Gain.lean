import Mathlib.Tactic.Ring
import Potts.Proofs.Partition.Modularity

/-!
# What a move gains

How the excess of a partition changes when one vertex moves to another label. The edges at the
vertex leave the one community and join the other, and so does its degree, whose square shows up
because the vertex also meets itself in the square of its community.
-/

namespace Potts.Partition

variable {K : Type} [ExactScalar K] {net : Network K} {labels : List Nat}
  {v source target label : Nat}

/-! ## Edges -/

/-- The weight of an edge, if it leads from a vertex to a neighbor that holds a label. -/
def acrossWeight (labels : List Nat) (v label : Nat) (e : Edge K) : K :=
  (((e.across v).filter fun neighbor => labels[neighbor.1]? == some label).map Prod.snd).sum

/-- The weight of the edges of a vertex to the neighbors that hold a label. -/
def weightTo (net : Network K) (labels : List Nat) (v label : Nat) : K :=
  (net.edges.map (acrossWeight labels v label)).sum

theorem acrossWeight_eq (labels : List Nat) (v label : Nat) (e : Edge K) :
    acrossWeight labels v label e =
      (if e.target = v then if labels[e.source]? = some label then e.weight else 0 else 0) +
        if e.source = v then if labels[e.target]? = some label then e.weight else 0 else 0 := by
  have hone : ∀ u : Nat, ((([(u, e.weight)] : List (Nat × K)).filter fun neighbor =>
      labels[neighbor.1]? == some label).map Prod.snd).sum =
        if labels[u]? = some label then e.weight else 0 := by
    intro u
    by_cases h : labels[u]? = some label <;> simp [h]
  rw [acrossWeight, Edge.across, List.filter_append, List.map_append, List.sum_append]
  congr 1
  · split
    · exact hone e.source
    · rfl
  · split
    · exact hone e.target
    · rfl

theorem insideWeight_of_source {e : Edge K} (h : labels[e.source]? = some label) :
    insideWeight labels e = 2 * if labels[e.target]? = some label then e.weight else 0 := by
  rw [insideWeight, h, mul_ite, mul_zero, Scalar.two_eq]
  exact if_congr eq_comm rfl rfl

theorem insideWeight_of_target {e : Edge K} (h : labels[e.target]? = some label) :
    insideWeight labels e = 2 * if labels[e.source]? = some label then e.weight else 0 := by
  rw [insideWeight, h, mul_ite, mul_zero, Scalar.two_eq]

theorem insideWeight_set (h : labels[v]? = some source) (target : Nat) {e : Edge K}
    (he : e.source ≠ e.target) :
    insideWeight (labels.set v target) e + 2 * acrossWeight labels v source e =
      insideWeight labels e + 2 * acrossWeight labels v target e := by
  obtain ⟨hv, -⟩ := List.getElem?_eq_some_iff.1 h
  have hset : (labels.set v target)[v]? = some target := List.getElem?_set_self hv
  rw [acrossWeight_eq, acrossWeight_eq]
  by_cases hsource : e.source = v
  · have htarget : e.target ≠ v := fun h => he (hsource.trans h.symm)
    rw [insideWeight_of_source (by rw [hsource, hset]), insideWeight_of_source (by rw [hsource, h]),
      List.getElem?_set_ne htarget.symm, if_neg htarget, if_neg htarget, if_pos hsource,
      if_pos hsource, zero_add, zero_add, add_comm]
  · rw [if_neg hsource, if_neg hsource, add_zero, add_zero]
    by_cases htarget : e.target = v
    · rw [insideWeight_of_target (by rw [htarget, hset]),
        insideWeight_of_target (by rw [htarget, h]), List.getElem?_set_ne (Ne.symm hsource),
        if_pos htarget, if_pos htarget, add_comm]
    · rw [insideWeight, insideWeight, List.getElem?_set_ne (Ne.symm hsource),
        List.getElem?_set_ne (Ne.symm htarget), if_neg htarget, if_neg htarget]

theorem sum_insideWeight_set (net : Network K) (h : labels[v]? = some source) (target : Nat) :
    (net.edges.map (insideWeight (labels.set v target))).sum + 2 * weightTo net labels v source =
      (net.edges.map (insideWeight labels)).sum + 2 * weightTo net labels v target := by
  rw [weightTo, weightTo, ← List.sum_map_mul_left, ← List.sum_map_mul_left, ← List.sum_map_add,
    ← List.sum_map_add]
  refine congrArg List.sum (List.map_congr_left fun e he => ?_)
  exact insideWeight_set h target (net.edges_valid e he).1

/-! ## Degrees -/

theorem squaredDegrees_eq {S : Finset Nat} (h : labels.toFinset ⊆ S) :
    squaredDegrees net labels = ∑ label ∈ S, (heldSum net.degree labels label : K) ^ 2 := by
  refine Finset.sum_subset h fun label _ hlabel => ?_
  rw [heldSum_eq_zero (mt List.mem_toFinset.2 hlabel), Nat.cast_zero, sq, zero_mul]

theorem squaredDegrees_set (h : labels[v]? = some source) (hne : target ≠ source) :
    squaredDegrees net (labels.set v target) = squaredDegrees net labels +
      2 * net.degree v * ((heldSum net.degree labels target : K) -
        heldSum net.degree labels source + net.degree v) := by
  -- Only the two labels of the move have new degree sums.
  have hpoint : ∀ label, (heldSum net.degree (labels.set v target) label : K) ^ 2 =
      (heldSum net.degree labels label : K) ^ 2 +
        (if label = target then 2 * (net.degree v : K) * heldSum net.degree labels label +
          (net.degree v : K) ^ 2 else 0) -
        (if label = source then 2 * (net.degree v : K) * heldSum net.degree labels label -
          (net.degree v : K) ^ 2 else 0) := by
    intro label
    have hset := congrArg (Nat.cast : Nat → K) (heldSum_set net.degree h target label)
    rw [Nat.cast_add, Nat.cast_add] at hset
    by_cases htarget : label = target
    · rw [htarget, if_neg hne, if_pos rfl, Nat.cast_zero, add_zero] at hset
      rw [htarget, if_pos rfl, if_neg hne, hset]
      ring
    · rw [if_neg htarget, Nat.cast_zero, add_zero] at hset
      rw [if_neg htarget]
      by_cases hsource : label = source
      · rw [if_pos hsource] at hset
        rw [if_pos hsource, ← hset]
        ring
      · rw [if_neg hsource, Nat.cast_zero, add_zero] at hset
        rw [if_neg hsource, hset, add_zero, sub_zero]
  have hsub : labels.toFinset ⊆ insert target labels.toFinset := Finset.subset_insert _ _
  have hsub' : (labels.set v target).toFinset ⊆ insert target labels.toFinset := by
    intro label hlabel
    rw [Finset.mem_insert, List.mem_toFinset]
    exact (List.mem_or_eq_of_mem_set (List.mem_toFinset.1 hlabel)).symm
  have hmem : source ∈ insert target labels.toFinset :=
    hsub (List.mem_toFinset.2 (List.mem_of_getElem? h))
  rw [squaredDegrees_eq hsub, squaredDegrees_eq hsub', Finset.sum_congr rfl fun label _ =>
    hpoint label, Finset.sum_sub_distrib, Finset.sum_add_distrib, Finset.sum_ite_eq',
    Finset.sum_ite_eq', if_pos (Finset.mem_insert_self _ _), if_pos hmem]
  ring

/-! ## The excess -/

/-- What a label costs a vertex of a partition: the weight that its degree lets one expect there,
less the weight of its edges into the label. -/
def cost (net : Network K) (labels : List Nat) (v label : Nat) : K :=
  ((net.degree v * heldSum net.degree labels label : Nat) : K) / (net.totalDegree : K) -
    weightTo net labels v label

/-- A move gains twice what the cost falls by, less what the vertex meets of itself. -/
theorem excess_set (net : Network K) (h : labels[v]? = some source) (hne : target ≠ source) :
    excess net (labels.set v target) - excess net labels =
      2 * (cost net labels v source - cost net labels v target -
        (net.degree v : K) * net.degree v / net.totalDegree) := by
  have hinside := sum_insideWeight_set net h target
  rw [excess, excess, squaredDegrees_set h hne, cost, cost, Nat.cast_mul, Nat.cast_mul]
  rw [eq_sub_of_add_eq hinside]
  ring

theorem modularity_set (hlabels : labels.length = net.size) (hweight : 0 < net.totalWeight)
    (h : labels[v]? = some source) (hne : target ≠ source)
    (hcase : (2 ≤ labels.toFinset.card ∧ 2 ≤ (labels.set v target).toFinset.card) ∨
      ∀ e ∈ net.edges, e.weight = 1) {q q' : K} (hq : modularity net labels = .ok q)
    (hq' : modularity net (labels.set v target) = .ok q') :
    net.totalWeight * (q' - q) = cost net labels v source - cost net labels v target -
      (net.degree v : K) * net.degree v / net.totalDegree := by
  have hlabels' : (labels.set v target).length = net.size := by rwa [List.length_set]
  rw [modularity_eq hlabels hweight (hcase.imp_left And.left)] at hq
  rw [modularity_eq hlabels' hweight (hcase.imp_left And.right)] at hq'
  cases hq
  cases hq'
  rw [← sub_div, excess_set net h hne, mul_div_mul_left _ _ two_ne_zero,
    mul_div_cancel₀ _ hweight.ne']

end Potts.Partition

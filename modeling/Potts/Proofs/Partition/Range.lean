import Potts.Proofs.Partition.Modularity
import Potts.Proofs.Scalar.Real

/-!
# The range of modularity

Where every edge weighs one, the modularity of a partition lies between `-1/2` and `1`.

The lower bound rests on a handshake within each community. The degree sum of a community counts the
ends of edges that it holds. An edge that leads out of a community has at most one end there, and an
edge inside a community has two; so no degree sum exceeds the number of edges by more than the
number of inside edges (`heldSum_degree_le`). With this bound on the factors, the squares of the
degree sums are estimated by the sum of all degrees, whatever the number of communities is.
-/

namespace Potts.Partition

/-! ## Ends of edges in a community -/

section Ends

variable {F : Type} [Scalar F] {net : Network F} {labels : List Nat}

/-- How many ends of an edge hold a label. -/
def endsIn (labels : List Nat) (label : Nat) (e : Edge F) : Nat :=
  (if labels[e.target]? = some label then 1 else 0) +
    if labels[e.source]? = some label then 1 else 0

/-- The number of edges inside communities. -/
def insideCount (net : Network F) (labels : List Nat) : Nat :=
  net.edges.countP fun e => labels[e.source]? = labels[e.target]?

theorem heldSum_degree (hlabels : labels.length = net.size) (label : Nat) :
    heldSum net.degree labels label = (net.edges.map (endsIn labels label)).sum := by
  have hvertices : (Finset.range labels.length).filter (fun v => labels[v]? = some label) ⊆
      Finset.range net.size := by
    rw [← hlabels]
    exact Finset.filter_subset _ _
  rw [heldSum, net.sum_degree_eq hvertices]
  refine congrArg List.sum (List.map_congr_left fun e he => ?_)
  have htarget := net.target_lt he
  have hsource := net.source_lt he
  simp only [Edge.length_across, Finset.sum_add_distrib, Finset.sum_ite_eq, Finset.mem_filter,
    Finset.mem_range, hlabels, htarget, hsource, true_and, endsIn]

omit [Scalar F] in
theorem endsIn_le (labels : List Nat) (label : Nat) (e : Edge F) :
    endsIn labels label e ≤ 1 + if labels[e.source]? = labels[e.target]? then 1 else 0 := by
  unfold endsIn
  by_cases htarget : labels[e.target]? = some label
  · by_cases hsource : labels[e.source]? = some label
    · rw [if_pos htarget, if_pos hsource, if_pos (hsource.trans htarget.symm)]
    · rw [if_neg hsource]
      split <;> omega
  · rw [if_neg htarget]
    split <;> omega

theorem heldSum_degree_le (hlabels : labels.length = net.size) (label : Nat) :
    heldSum net.degree labels label ≤ net.edgeCount + insideCount net labels := by
  have hends : ∀ edges : List (Edge F), (edges.map (endsIn labels label)).sum ≤
      edges.length + edges.countP fun e => labels[e.source]? = labels[e.target]? := by
    intro edges
    induction edges with
    | nil => exact Nat.le_refl 0
    | cons e edges ih =>
      have hle := endsIn_le labels label e
      rw [List.map_cons, List.sum_cons, List.length_cons, List.countP_cons]
      simp only [decide_eq_true_eq]
      omega
  rw [heldSum_degree hlabels]
  exact hends net.edges

theorem sum_heldSum_degree (hlabels : labels.length = net.size) :
    ∑ label ∈ labels.toFinset, heldSum net.degree labels label = net.totalDegree := by
  rw [sum_heldSum, hlabels, net.sum_degree]

end Ends

/-! ## The bounds -/

section Exact

variable {K : Type} [ExactScalar K] {net : Network K} {labels : List Nat}

theorem sum_insideWeight (hunit : ∀ e ∈ net.edges, e.weight = 1) (labels : List Nat) :
    (net.edges.map (insideWeight labels)).sum = 2 * (insideCount net labels : K) := by
  unfold insideCount
  revert hunit
  induction net.edges with
  | nil => simp
  | cons e edges ih =>
    intro hunit
    have hrest := ih fun e' he' => hunit e' (List.mem_cons_of_mem e he')
    rw [List.map_cons, List.sum_cons, hrest, List.countP_cons, insideWeight,
      hunit e List.mem_cons_self, Scalar.two_eq]
    by_cases hinside : labels[e.source]? = labels[e.target]?
    · simp [hinside, mul_add, add_comm]
    · simp [hinside]

theorem squaredDegrees_le (hlabels : labels.length = net.size) :
    squaredDegrees net labels ≤
      ((net.edgeCount : K) + insideCount net labels) * net.totalDegree := by
  have hsum := congrArg (Nat.cast : Nat → K) (sum_heldSum_degree hlabels)
  rw [Nat.cast_sum] at hsum
  rw [squaredDegrees, ← hsum, Finset.mul_sum]
  refine Finset.sum_le_sum fun label _ => ?_
  have hle : (heldSum net.degree labels label : K) ≤ net.edgeCount + insideCount net labels := by
    exact_mod_cast heldSum_degree_le hlabels label
  rw [sq]
  exact mul_le_mul_of_nonneg_right hle (Nat.cast_nonneg _)

theorem insideCount_le (net : Network K) (labels : List Nat) :
    insideCount net labels ≤ net.edgeCount := List.countP_le_length

/-- Where every edge weighs one, the excess is at most twice the number of edges, and lacks at most
this number of zero. -/
theorem excess_bounds (hunit : ∀ e ∈ net.edges, e.weight = 1) (hedges : 0 < net.edgeCount)
    (hlabels : labels.length = net.size) :
    -(net.edgeCount : K) ≤ excess net labels ∧ excess net labels ≤ 2 * net.edgeCount := by
  have htotal : (0 : K) < net.totalDegree := by
    rw [Nat.cast_pos, Network.totalDegree]
    omega
  have hsquares : squaredDegrees net labels / (net.totalDegree : K) ≤
      net.edgeCount + insideCount net labels := (div_le_iff₀ htotal).2 (squaredDegrees_le hlabels)
  have hnonneg : 0 ≤ squaredDegrees net labels / (net.totalDegree : K) :=
    div_nonneg (Finset.sum_nonneg fun label _ => sq_nonneg _) htotal.le
  have hinside : (insideCount net labels : K) ≤ net.edgeCount :=
    Nat.cast_le.2 (insideCount_le net labels)
  have hcount : (0 : K) ≤ insideCount net labels := Nat.cast_nonneg _
  rw [excess, sum_insideWeight hunit]
  constructor <;> linarith

theorem totalWeight_of_unit (hunit : ∀ e ∈ net.edges, e.weight = 1) :
    net.totalWeight = net.edgeCount := by
  rw [totalWeight_eq_sum, List.map_congr_left hunit, List.map_const', List.sum_replicate,
    nsmul_eq_mul, mul_one, Network.edgeCount]

/-- On a network whose edges all weigh one, with parallel edges, with vertices that have none or
without any edge, every partition has a modularity, and it lies between `-1/2` and `1`. -/
theorem modularity_mem_range (hunit : ∀ e ∈ net.edges, e.weight = 1)
    (hlabels : labels.length = net.size) :
    ∃ q, modularity net labels = .ok q ∧ -1 / 2 ≤ q ∧ q ≤ 1 := by
  by_cases hedges : net.edgeCount = 0
  · refine ⟨0, ?_, by norm_num, zero_le_one⟩
    rw [modularity, if_neg (not_not.2 hlabels), if_pos (Or.inl hedges), Scalar.zero_eq]
  · have hpos : (0 : K) < net.edgeCount := Nat.cast_pos.2 (Nat.pos_of_ne_zero hedges)
    have hweight : 0 < net.totalWeight := by rwa [totalWeight_of_unit hunit]
    obtain ⟨hlow, hhigh⟩ := excess_bounds hunit (Nat.pos_of_ne_zero hedges) hlabels
    refine ⟨_, modularity_eq hlabels hweight (Or.inr hunit), ?_, ?_⟩
    · rw [totalWeight_of_unit hunit, le_div_iff₀ (mul_pos two_pos hpos)]
      linarith
    · rw [totalWeight_of_unit hunit, div_le_one (mul_pos two_pos hpos)]
      exact hhigh

theorem excess_path : excess Network.path [0, 1, 0] = -2 := by
  have hinside : insideCount Network.path [0, 1, 0] = 0 := rfl
  have hends : heldSum Network.path.degree [0, 1, 0] 0 = 2 := by decide
  have hmiddle : heldSum Network.path.degree [0, 1, 0] 1 = 2 := by decide
  have htotal : Network.path.totalDegree = 4 := by decide
  have hlabels : [0, 1, 0].toFinset = {0, 1} := by decide
  rw [excess, sum_insideWeight (by simp [Network.path]), hinside, squaredDegrees, hlabels,
    Finset.sum_pair (by decide), hends, hmiddle, htotal]
  norm_num

theorem modularity_mem_range_path :
    (∀ e ∈ Network.path.edges, e.weight = 1) ∧ [0, 1, 0].length = Network.path.size ∧
      (∃ q, modularity Network.path [0, 1, 0] = .ok q ∧ -1 / 2 ≤ q ∧ q ≤ 1) ∧
      modularity Network.path [0, 1, 0] = .ok (-1 / 2) := by
  have hunit : ∀ e ∈ Network.path.edges, e.weight = 1 := by simp [Network.path]
  have hlabels : [0, 1, 0].length = Network.path.size := rfl
  refine ⟨hunit, hlabels, modularity_mem_range hunit hlabels, ?_⟩
  have hweight : Network.path.totalWeight = 2 := totalWeight_of_unit hunit
  have hpos : 0 < Network.path.totalWeight := by
    rw [hweight]
    exact two_pos
  rw [modularity_eq hlabels hpos (Or.inr hunit), excess_path, hweight]
  norm_num

end Exact

end Potts.Partition

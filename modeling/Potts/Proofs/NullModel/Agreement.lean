import Potts.Proofs.NullModel.Conservation

/-!
# Where the null models agree

The correlated null model keeps how degrees are joined. Where they are joined as if the ends of the
edges had been paired at random there is nothing to keep, and the model expects what the
uncorrelated one expects. The uncorrelated model keeps degrees; where all vertices have the same
one, it expects what the independent model expects. In exact arithmetic this holds after any moves,
although the three models count different things (`afterMoves_agree`).
-/

namespace Potts

open Potts.Partition NullModel Correlated

variable {K : Type} [ExactScalar K] {net : Network K} {labels : List Nat}

/-! ## Networks without degree correlation -/

namespace Network

/-- The edge ends at every degree lead to a degree in proportion to the edge ends that it has. The
shares are the entries of the matrix that a correlated model is built from (`map_shares`). -/
def IsUncorrelated (net : Network K) : Prop :=
  ∀ degree ∈ net.degreeSet, 0 < degree → ∀ degree' ∈ net.degreeSet,
    net.share degree degree' = (degree' : K) * net.classSize degree' / net.totalDegree

theorem sum_mul_classSize (net : Network K) :
    ∑ degree ∈ net.degreeSet, degree * net.classSize degree = net.totalDegree := by
  rw [← net.sum_degree, net.sum_degree_comp fun degree => degree]
  exact Finset.sum_congr rfl fun degree _ => mul_comm _ _

theorem mul_classSize_le {degree : Nat} (hdegree : degree ∈ net.degreeSet) :
    degree * net.classSize degree ≤ net.totalDegree := by
  rw [← net.sum_mul_classSize]
  exact Finset.single_le_sum (f := fun degree => degree * net.classSize degree)
    (fun _ _ => Nat.zero_le _) hdegree

theorem isUncorrelated_iff : net.IsUncorrelated ↔
    ∀ degree ∈ net.degreeSet, 0 < degree → ∀ degree' ∈ net.degreeSet,
      net.mixing degree degree' * net.totalDegree =
        (degree' * net.classSize degree') * (degree * net.classSize degree) := by
  refine forall₂_congr fun degree hdegree => forall_congr' fun hpos => forall₂_congr fun _ _ => ?_
  have hends : 0 < degree * net.classSize degree := Nat.mul_pos hpos (net.classSize_pos hdegree)
  have htotal : 0 < net.totalDegree := lt_of_lt_of_le hends (mul_classSize_le hdegree)
  rw [share_eq, ← Nat.cast_mul,
    div_eq_div_iff (Nat.cast_ne_zero.2 hends.ne') (Nat.cast_ne_zero.2 htotal.ne')]
  exact_mod_cast Iff.rfl

theorem isUncorrelated_of_regular {degree : Nat} (h : ∀ v < net.size, net.degree v = degree) :
    net.IsUncorrelated := by
  have honly : ∀ other ∈ net.degreeSet, other = degree := by
    intro other hother
    obtain ⟨v, hv, rfl⟩ := Finset.mem_image.1 hother
    exact h v (Finset.mem_range.1 hv)
  intro first hfirst hpos second hsecond
  obtain rfl : degree = first := (honly first hfirst).symm
  obtain rfl : degree = second := (honly second hsecond).symm
  have hset : net.degreeSet = {degree} := Finset.eq_singleton_iff_unique_mem.2 ⟨hfirst, honly⟩
  have hshare : net.share degree degree = (1 : K) := by
    rw [← net.sum_share hfirst hpos, hset, Finset.sum_singleton]
  have htotal : degree * net.classSize degree = net.totalDegree := by
    rw [← net.sum_mul_classSize, hset, Finset.sum_singleton]
  have hne : net.totalDegree ≠ 0 := by
    rw [← htotal]
    exact (Nat.mul_pos hpos (net.classSize_pos hfirst)).ne'
  rw [hshare, ← Nat.cast_mul, htotal, div_self (Nat.cast_ne_zero.2 hne)]

end Network

/-! ## Equal expectations -/

namespace NullModel

variable {v : Nat}

theorem closedForm_correlated (hnet : net.IsUncorrelated) (hlabels : labels.length = net.size)
    (hv : v < net.size) (label : Nat) :
    closedForm .correlated net labels (net.degree v) label =
      closedForm .uncorrelated net labels (net.degree v) label := by
  rcases Nat.eq_zero_or_pos (net.degree v) with hzero | hpos
  · simp [closedForm, hzero]
  · have hpart : ∀ degree' ∈ net.degreeSet,
        (net.degree v : K) * net.share (net.degree v) degree' *
          (heldSum (inClass net degree') labels label : K) / (net.classSize degree' : K) =
        net.degree v / net.totalDegree *
          ((degree' * heldSum (inClass net degree') labels label : Nat) : K) := by
      intro degree' hdegree'
      have hne : (net.classSize degree' : K) ≠ 0 :=
        Nat.cast_ne_zero.2 (net.classSize_pos hdegree').ne'
      rw [hnet _ (net.degree_mem_degreeSet hv) hpos degree' hdegree', Nat.cast_mul]
      field_simp
    simp only [closedForm]
    rw [Finset.sum_congr rfl hpart, ← Finset.mul_sum, ← Nat.cast_sum,
      sum_mul_heldSum_inClass hlabels, div_mul_eq_mul_div]

theorem closedForm_independent {degree : Nat} (h : ∀ v < net.size, net.degree v = degree)
    (hlabels : labels.length = net.size) (hv : v < net.size) (label : Nat) :
    closedForm .independent net labels (net.degree v) label =
      closedForm .uncorrelated net labels (net.degree v) label := by
  have hsize : (net.size : K) ≠ 0 := Nat.cast_ne_zero.2 (by omega)
  have htotal : net.totalDegree = net.size * degree := by
    rw [← net.sum_degree, Finset.sum_congr rfl fun v hv => h v (Finset.mem_range.1 hv),
      Finset.sum_const, Finset.card_range, smul_eq_mul]
  have hheld : heldSum net.degree labels label = labels.count label * degree := by
    have hdegree : ∀ v ∈ (Finset.range labels.length).filter (labels[·]? = some label),
        net.degree v = 1 * degree := by
      intro v hv
      rw [one_mul, h v (hlabels ▸ Finset.mem_range.1 (Finset.mem_filter.1 hv).1)]
    rw [heldSum, Finset.sum_congr rfl hdegree, ← Finset.sum_mul, ← heldSum_one, heldSum]
  simp only [closedForm]
  rw [htotal, hheld, h v hv]
  rcases Nat.eq_zero_or_pos degree with rfl | hpos
  · simp
  · have hne : (degree : K) ≠ 0 := Nat.cast_ne_zero.2 hpos.ne'
    push_cast
    field_simp

/-! ## Models -/

/-- Two models expect the same of all vertices of a network. -/
def Agrees (net : Network K) (m m' : NullModel K) : Prop :=
  ∀ v < net.size, ∀ label, m.expected (net.degree v) label = m'.expected (net.degree v) label

/-- After any moves the correlated and the uncorrelated model agree if there is no degree
correlation, and all three models agree if all vertices have the same degree. -/
theorem afterMoves_agree (net : Network K) (hlabels : labels.length = net.size)
    {moves : List (Nat × Nat)} (hmoves : ∀ move ∈ moves, move.1 < net.size) :
    ∃ independent uncorrelated correlated : NullModel K,
      afterMoves .independent net labels moves = .ok independent ∧
      afterMoves .uncorrelated net labels moves = .ok uncorrelated ∧
      afterMoves .correlated net labels moves = .ok correlated ∧
      (net.IsUncorrelated → Agrees net correlated uncorrelated) ∧
      ∀ degree, (∀ v < net.size, net.degree v = degree) →
        Agrees net correlated uncorrelated ∧ Agrees net independent uncorrelated := by
  obtain ⟨independent, hi, hindependent⟩ := exists_closedForm .independent net hlabels hmoves
  obtain ⟨uncorrelated, hu, huncorrelated⟩ := exists_closedForm .uncorrelated net hlabels hmoves
  obtain ⟨correlated, hc, hcorrelated⟩ := exists_closedForm .correlated net hlabels hmoves
  have hlength : (movedLabels labels moves).length = net.size := by
    rw [length_movedLabels, hlabels]
  have hagrees : net.IsUncorrelated → Agrees net correlated uncorrelated := by
    intro hnet v hv label
    rw [hcorrelated v hv, huncorrelated v hv, closedForm_correlated hnet hlength hv]
  refine ⟨independent, uncorrelated, correlated, hi, hu, hc, hagrees, fun degree hdegree => ?_⟩
  refine ⟨hagrees (Network.isUncorrelated_of_regular hdegree), fun v hv label => ?_⟩
  rw [hindependent v hv, huncorrelated v hv, closedForm_independent hdegree hlength hv]

/-- A path on four vertices and an edge beside it. Half of the edge ends are at vertices of degree
two, and half of the edge ends at each degree lead there. -/
noncomputable def pathAndEdge : Network ℝ :=
  .unit 6 [(0, 1), (1, 2), (2, 3), (4, 5)] (by decide)

noncomputable def triangle : Network ℝ := .unit 3 [(0, 1), (1, 2), (2, 0)] (by decide)

theorem afterMoves_agree_triangle :
    (∃ uncorrelated correlated : NullModel ℝ,
      afterMoves .uncorrelated pathAndEdge [0, 0, 1, 1, 0, 1] [(2, 0)] = .ok uncorrelated ∧
      afterMoves .correlated pathAndEdge [0, 0, 1, 1, 0, 1] [(2, 0)] = .ok correlated ∧
      Agrees pathAndEdge correlated uncorrelated) ∧
    ∃ independent uncorrelated correlated : NullModel ℝ,
      afterMoves .independent triangle [0, 0, 1] [(1, 1)] = .ok independent ∧
      afterMoves .uncorrelated triangle [0, 0, 1] [(1, 1)] = .ok uncorrelated ∧
      afterMoves .correlated triangle [0, 0, 1] [(1, 1)] = .ok correlated ∧
      Agrees triangle correlated uncorrelated ∧ Agrees triangle independent uncorrelated := by
  have hnet : pathAndEdge.IsUncorrelated := by
    rw [Network.isUncorrelated_iff]
    decide
  have hregular : ∀ v < triangle.size, triangle.degree v = 2 := by decide
  have hlabels : [0, 0, 1, 1, 0, 1].length = pathAndEdge.size := rfl
  have hlabels' : [0, 0, 1].length = triangle.size := rfl
  have hmoves : ∀ move ∈ [(2, 0)], move.1 < pathAndEdge.size := by decide
  have hmoves' : ∀ move ∈ [(1, 1)], move.1 < triangle.size := by decide
  obtain ⟨-, uncorrelated, correlated, -, hu, hc, hagrees, -⟩ :=
    afterMoves_agree pathAndEdge hlabels hmoves
  obtain ⟨independent', uncorrelated', correlated', hi', hu', hc', -, hagrees'⟩ :=
    afterMoves_agree triangle hlabels' hmoves'
  exact ⟨⟨uncorrelated, correlated, hu, hc, hagrees hnet⟩,
    independent', uncorrelated', correlated', hi', hu', hc', hagrees' 2 hregular⟩

end NullModel

end Potts

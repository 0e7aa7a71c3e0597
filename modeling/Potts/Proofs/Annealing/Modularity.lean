import Mathlib.Analysis.SpecialFunctions.Log.Basic
import Potts.Proofs.Annealing.Sweep
import Potts.Proofs.Partition.Gain
import Potts.Proofs.Scalar.Real
import Potts.Random.ChaCha

/-!
# Energies and modularity

With the uncorrelated null model and the resolution one, the energy of a label for a vertex is what
the label costs the vertex in the modularity of the partition. So the fall of the energy in a move
is the rise of the modularity, up to what the vertex meets of itself: annealing expects a vertex to
have edges to its own degree in the label that it holds.
-/

namespace Potts.Annealing

open Checked Potts.Partition

variable {K R : Type} [ExactScalar K] {setting : Setting K} {state : State K R} {v : Nat}

theorem weightInto_eq (net : Network K) (labels : Array Nat) (hv : v < net.size) (label : Nat) :
    weightInto net labels v label = weightTo net labels.toList v label := by
  rw [weightInto, Scalar.sum_eq, neighborsIn, net.neighbors_eq hv, List.filter_flatMap,
    List.map_flatMap, List.flatMap_def, List.sum_flatten, List.map_map]
  refine congrArg List.sum (List.map_congr_left fun e _ => ?_)
  simp only [Function.comp_apply, acrossWeight, Array.getElem?_toList]

/-- The energies of an uncorrelated model are the costs of the partition. -/
theorem Consistent.cost_eq (h : Consistent setting state)
    (hkind : state.nullModel.kind = .uncorrelated) (hedges : 0 < setting.network.edgeCount)
    (hv : v < setting.network.size) (label : Nat) :
    state.nullModel.expected (setting.network.degree v) label -
        weightInto setting.network state.labels v label =
      cost setting.network state.labels.toList v label := by
  have hfollows := h.nullModel
  have htotal : setting.network.totalDegree ≠ 0 := by
    rw [Network.totalDegree]
    omega
  cases hm : state.nullModel with
  | independent m => rw [hm] at hkind; cases hkind
  | correlated m => rw [hm] at hkind; cases hkind
  | uncorrelated m =>
    rw [hm] at hfollows
    rw [cost, weightInto_eq _ _ hv, NullModel.expected,
      NullModel.Uncorrelated.Follows.expected_eq hfollows, if_neg htotal]

/-- From any state that sweeps and moves reach under the uncorrelated model with the resolution one,
a vertex moves to another label. If there are two labels before and after, or every edge weighs one,
the modularity rises by as much as the energy of the vertex falls, less its share `k² / 2m` of its
own degree, all over the total weight. So it rises exactly when the energy falls by more than that
share. -/
theorem modularity_makeMoves (R : Type) [SeededSource R] (d : Detector K) (net : Network K)
    (hkind : d.nullModel = .uncorrelated) (hresolution : d.resolution = 1)
    (hweight : 0 < net.totalWeight) (temperatures : List K) {moves : List (Nat × Nat)}
    (hmoves : ∀ move ∈ moves, move.1 < net.size ∧ move.2 < d.labelCount net.size) {v : Nat}
    (hv : v < net.size) :
    ∃ setting swept state weights a,
      sweptAt R d net temperatures = .ok (setting, swept) ∧
      makeMoves setting swept moves = .ok state ∧
      state.labels[v]? = some a ∧ localWeights net state.labels v = .ok weights ∧
      ∀ b < d.labelCount net.size, b ≠ a → ∃ state' q q',
        makeMoves setting state [(v, b)] = .ok state' ∧
        modularity net state.labels.toList = .ok q ∧
        modularity net state'.labels.toList = .ok q' ∧
        let degree := net.degree v
        let energy := fun label =>
          state.nullModel.expected degree label - (weights.get? label).getD 0
        let own : K := degree * degree / (2 * net.edgeCount)
        (∀ label, localEnergy setting state.nullModel state.labels v label = energy label) ∧
        ((2 ≤ state.labels.toList.toFinset.card ∧ 2 ≤ state'.labels.toList.toFinset.card) ∨
            (∀ e ∈ net.edges, e.weight = 1) →
          net.totalWeight * (q' - q) = energy a - energy b - own ∧
            (q < q' ↔ own < energy a - energy b)) := by
  obtain ⟨⟨setting, swept⟩, hreached, rfl, hresolution', hcount, hkind', hswept⟩ :=
    yields_sweptAt (R := R) d net temperatures
  dsimp only at *
  rw [← hcount] at hmoves ⊢
  obtain ⟨state, hstate, h, -, hkind''⟩ := hswept.yields_makeMoves hmoves
  have hedges := edgeCount_pos hweight
  obtain ⟨weights, hweights, hget⟩ := yields_localWeights h.size_labels hv
  have hinto : ∀ label, (weights.get? label).getD 0 =
      weightInto setting.network state.labels v label := by
    intro label
    rw [hget, getD_edgeWeight?, weightInto]
  have hcost := h.cost_eq (hkind''.trans (hkind'.trans hkind)) hedges hv
  have hlt : v < state.labels.size := by rwa [h.size_labels]
  have ha : state.labels[v]? = some state.labels[v] := Array.getElem?_eq_getElem hlt
  have ha' : state.labels.toList[v]? = some state.labels[v] := by rwa [Array.getElem?_toList]
  have hlength : state.labels.toList.length = setting.network.size := by
    rw [Array.length_toList, h.size_labels]
  obtain ⟨q, hq⟩ := exists_modularity setting.network _ hlength
  refine ⟨setting, swept, state, weights, state.labels[v], hreached, hstate, ha, hweights,
    fun b hb hne => ?_⟩
  have hmove : ∀ move ∈ [(v, b)], move.1 < setting.network.size ∧ move.2 < setting.labels := by
    intro move hmove
    rw [List.mem_singleton.1 hmove]
    exact ⟨hv, hb⟩
  obtain ⟨state', hstate', h', hlabels', -⟩ := h.yields_makeMoves hmove
  have hset : state'.labels.toList = state.labels.toList.set v b := by
    rw [hlabels']
    exact Array.toList_setIfInBounds
  obtain ⟨q', hq'⟩ := exists_modularity setting.network state'.labels.toList
    (by rw [hset, List.length_set, hlength])
  refine ⟨state', q, q', hstate', hq, hq', fun label => ?_, fun hcase => ?_⟩
  · rw [localEnergy_eq, hresolution', hresolution, one_mul, hinto]
  · rw [hset] at hcase hq'
    have hgain := modularity_set hlength hweight ha' hne hcase hq hq'
    rw [Network.totalDegree, Nat.cast_mul, Nat.cast_ofNat] at hgain
    simp only [hinto, hcost]
    refine ⟨hgain, ?_⟩
    rw [← sub_pos, ← mul_pos_iff_of_pos_left hweight, hgain, sub_pos]

theorem modularity_makeMoves_path :
    ∃ (setting : Setting ℝ) (swept state state' : State ℝ ChaCha)
      (weights : SortedMap Nat ℝ compare) (a b : Nat) (q q' : ℝ),
      sweptAt ChaCha ⟨1, .uncorrelated, 1, 1, 1, 9, 42, false⟩ Network.path [2] =
        .ok (setting, swept) ∧
      makeMoves setting swept [(0, 1)] = .ok state ∧ state.labels[1]? = some a ∧
      localWeights Network.path state.labels 1 = .ok weights ∧ b ≠ a ∧
      makeMoves setting state [(1, b)] = .ok state' ∧
      modularity Network.path state.labels.toList = .ok q ∧
      modularity Network.path state'.labels.toList = .ok q' ∧
      Network.path.totalWeight * (q' - q) =
        state.nullModel.expected 2 a - (weights.get? a).getD 0 -
          (state.nullModel.expected 2 b - (weights.get? b).getD 0) -
            (2 : Nat) * (2 : Nat) / (2 * (2 : Nat)) := by
  have hunit : ∀ e ∈ Network.path.edges, e.weight = 1 := by
    intro e he
    simp only [Network.path, List.mem_cons, List.not_mem_nil, or_false] at he
    rcases he with rfl | rfl <;> rfl
  have hweight : 0 < Network.path.totalWeight := by
    simp only [Network.path, Scalar.sum_eq, List.sum_cons, List.sum_nil]
    norm_num
  have hmoves : ∀ move ∈ [(0, 1)], move.1 < Network.path.size ∧ move.2 < 9 := by
    intro move hmove
    rw [List.mem_singleton.1 hmove]
    decide
  have hv : 1 < Network.path.size := by decide
  obtain ⟨setting, swept, state, weights, a, hreached, hstate, ha, hweights, hmove⟩ :=
    modularity_makeMoves ChaCha ⟨1, .uncorrelated, 1, 1, 1, 9, 42, false⟩ Network.path rfl rfl
      hweight [2] hmoves hv
  have hb : (if a = 0 then 1 else 0) < 9 ∧ (if a = 0 then 1 else 0) ≠ a := by
    split <;> omega
  obtain ⟨state', q, q', hstate', hq, hq', -, hgain⟩ := hmove _ hb.1 hb.2
  exact ⟨setting, swept, state, state', weights, a, _, q, q', hreached, hstate, ha, hweights, hb.2,
    hstate', hq, hq', (hgain (Or.inr hunit)).1⟩

end Potts.Annealing

import Mathlib.Algebra.BigOperators.Ring.Finset
import Mathlib.Algebra.Order.BigOperators.Ring.Finset
import Mathlib.Tactic.FieldSimp
import Potts.Proofs.Boltzmann.Mass

/-!
# Gibbs weights

In exact arithmetic with a positive exponential function that turns sums into products, the weights
of a list that weighs labels are Gibbs weights: if an energy is chosen by its weight and then one of
its labels with equal chances, then every label `s` has the share `exp (-E(s) / T)` over the sum of
these. Degree, ceiling and shift are in one factor that all weights have in common.
-/

namespace Potts.BoltzmannTable

variable {K : Type} [ExactScalar K] {weights weights' : List (K × K)} {n : Nat} {energy : Nat → K}
  {w w' : Weighing K}

/-- What all weights of a class have in common. -/
def commonFactor (w : Weighing K) : K :=
  Scalar.exp ((-w.degree - w.ceiling) / w.temperature + w.shift)

theorem weight_eq (hadd : ∀ x y : K, Scalar.exp (x + y) = Scalar.exp x * Scalar.exp y)
    (w : Weighing K) (e : K) (size : Nat) :
    w.weight e size = Scalar.exp (-e / w.temperature) * commonFactor w * (size : K) := by
  have hsplit : (-e - w.degree - w.ceiling) / w.temperature + w.shift =
      -e / w.temperature + ((-w.degree - w.ceiling) / w.temperature + w.shift) := by ring
  rw [Weighing.weight, commonFactor, ← hadd, ← hsplit]

theorem Weighs.perm (h : Weighs weights n energy w) (h' : Weighs weights' n energy w') {factor : K}
    (hfactor : ∀ e size, w.weight e size = factor * w'.weight e size) :
    weights.Perm (weights'.map fun x => (x.1, factor * x.2)) := by
  have hnodup : ((weights'.map fun x => (x.1, factor * x.2)).map Prod.fst).Nodup := by
    rw [List.map_map]
    exact h'.nodup
  refine (List.perm_ext_iff_of_nodup h.nodup.of_map hnodup.of_map).2 fun x => ?_
  rw [h.mem_iff, List.mem_map]
  constructor
  · rintro ⟨hlabel, hweight⟩
    refine ⟨(x.1, w'.weight x.1 (labelsAt n energy x.1)), (h'.mem_iff _).2 ⟨hlabel, rfl⟩, ?_⟩
    rw [← hfactor, ← hweight]
  · rintro ⟨x', hx', rfl⟩
    obtain ⟨hlabel, hweight⟩ := (h'.mem_iff x').1 hx'
    refine ⟨hlabel, ?_⟩
    rw [hfactor, ← hweight]

theorem weight_eq_mul (hexp : ∀ x : K, 0 < Scalar.exp x)
    (hadd : ∀ x y : K, Scalar.exp (x + y) = Scalar.exp x * Scalar.exp y)
    (htemperature : w.temperature = w'.temperature) :
    0 < commonFactor w / commonFactor w' ∧ ∀ e size,
      w.weight e size = commonFactor w / commonFactor w' * w'.weight e size := by
  have hpos : 0 < commonFactor w := hexp _
  have hpos' : 0 < commonFactor w' := hexp _
  refine ⟨div_pos hpos hpos', fun e size => ?_⟩
  rw [weight_eq hadd, weight_eq hadd, htemperature]
  field_simp

/-- The share of a label: the share of its energy among all weights, over the number of labels that
have this energy. -/
theorem Weighs.share (h : Weighs weights n energy w) (hexp : ∀ x : K, 0 < Scalar.exp x)
    (hadd : ∀ x y : K, Scalar.exp (x + y) = Scalar.exp x * Scalar.exp y) {label : Nat}
    (hlabel : label < n) :
    ∃ x, (energy label, x) ∈ weights ∧
      x / (weights.map Prod.snd).sum / (labelsAt n energy (energy label) : K) =
        Scalar.exp (-energy label / w.temperature) /
          ∑ other ∈ Finset.range n, Scalar.exp (-energy other / w.temperature) := by
  refine ⟨w.weight (energy label) (labelsAt n energy (energy label)),
    (h.mem_iff _).2 ⟨⟨label, hlabel, rfl⟩, rfl⟩, ?_⟩
  have hmem : label ∈ (Finset.range n).filter fun other => energy other = energy label :=
    Finset.mem_filter.2 ⟨Finset.mem_range.2 hlabel, rfl⟩
  have hcount : (labelsAt n energy (energy label) : K) ≠ 0 :=
    Nat.cast_ne_zero.2 (Finset.card_pos.2 ⟨label, hmem⟩).ne'
  have hfactor : commonFactor w ≠ 0 := (hexp _).ne'
  have hsum : ∑ other ∈ Finset.range n, Scalar.exp (-energy other / w.temperature) ≠ 0 :=
    (Finset.sum_pos (fun other _ => hexp _) ⟨label, Finset.mem_range.2 hlabel⟩).ne'
  have htotal : (weights.map Prod.snd).sum =
      (∑ other ∈ Finset.range n, Scalar.exp (-energy other / w.temperature)) *
        commonFactor w := by
    rw [h.sum_eq, Finset.sum_mul]
    refine Finset.sum_congr rfl fun other _ => ?_
    rw [weight_eq hadd, Nat.cast_one, mul_one]
  rw [htotal, weight_eq hadd]
  field_simp

end Potts.BoltzmannTable

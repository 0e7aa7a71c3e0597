import Mathlib.Tactic.Linarith
import Potts.Proofs.Boltzmann.Mass

/-!
# The ceiling of a degree class

In exact arithmetic the ceiling of a class is the least number that is not negative and that, with
the degree, makes up for a strength less any energy of the class. A weighing `Covers` an energy if
the degree and the ceiling make up for it. The exponent of such an energy is at most the shift, so
no label weighs more than the exponential of the shift, and the total of a table is bounded by the
number of labels.
-/

namespace Potts

variable {K : Type} [ExactScalar K] {s : Spectrum K} {w : Weighing K} {n degree : Nat}
  {strength e : K} {energy : Nat → K}

/-! ## Ceilings -/

namespace Weighing

theorem ceilingOf_some (degree : Nat) (strength lowest : K) :
    ceilingOf degree strength (some lowest) = max (strength - degree - lowest) 0 := by
  rw [ceilingOf, Scalar.zero_eq]
  rfl

theorem le_ceilingOf (hs : s.Files (Set.Iio n) energy) (degree : Nat) (strength : K) {label : Nat}
    (hlabel : label < n) :
    strength - degree - energy label ≤ ceilingOf degree strength (s.minimum?.map Prod.fst) := by
  obtain ⟨level, hlevel, -⟩ := hs.exists_level hlabel (Spectrum.order_self _)
  obtain ⟨least, hleast, -⟩ := Spectrum.exists_minimum hlevel
  have hle := Scalar.isLE_order.1 (Spectrum.isLE_minimum hleast hlevel)
  rw [hleast, Option.map_some, ceilingOf_some]
  exact (sub_le_sub_left hle _).trans (le_max_left _ _)

theorem ceilingOf_eq_zero (hs : s.Files (Set.Iio n) energy) (hstrength : strength ≤ degree)
    (henergy : ∀ label < n, 0 ≤ energy label) :
    ceilingOf degree strength (s.minimum?.map Prod.fst) = 0 := by
  cases hleast : s.minimum? with
  | none => exact Scalar.zero_eq
  | some least =>
    have hlevel := Spectrum.level?_of_mem_toList (List.mem_of_mem_head? hleast)
    obtain ⟨label, hlabel, hkey⟩ := hs.exists_level_iff.1 ⟨_, hlevel⟩
    have hnonneg := henergy label hlabel
    rw [← Scalar.order_eq_eq.1 hkey] at hnonneg
    rw [Option.map_some, ceilingOf_some]
    apply max_eq_right
    linarith

/-! ## Covered energies -/

/-- The degree and the ceiling make up for an energy, however far below zero it is. -/
def Covers (w : Weighing K) (e : K) : Prop := -e - w.degree - w.ceiling ≤ 0

theorem covers_of_mem_toList (hs : s.Files (Set.Iio n) energy)
    (h : ∀ label < n, w.Covers (energy label)) {level : K × LabelSet} (hlevel : level ∈ s.toList) :
    w.Covers level.1 := by
  obtain ⟨label, hlabel, hkey⟩ :=
    hs.exists_level_iff.1 ⟨_, Spectrum.level?_of_mem_toList hlevel⟩
  rw [Scalar.order_eq_eq.1 hkey]
  exact h label hlabel

theorem Covers.exponent_le (h : w.Covers e) (htemperature : 0 < w.temperature) :
    (-e - w.degree - w.ceiling) / w.temperature + w.shift ≤ w.shift := by
  have hdiv := div_nonpos_of_nonpos_of_nonneg h htemperature.le
  linarith

theorem sum_weight_le (hmono : ∀ x y : K, x ≤ y → Scalar.exp x ≤ Scalar.exp y)
    (htemperature : 0 < w.temperature) (h : ∀ label < n, w.Covers (energy label)) :
    ∑ label ∈ Finset.range n, w.weight (energy label) 1 ≤ n * Scalar.exp w.shift := by
  have hle : ∀ label ∈ Finset.range n, w.weight (energy label) 1 ≤ Scalar.exp w.shift := by
    intro label hlabel
    rw [weight, Nat.cast_one, mul_one]
    exact hmono _ _ ((h label (Finset.mem_range.1 hlabel)).exponent_le htemperature)
  have hsum := Finset.sum_le_card_nsmul _ _ _ hle
  rwa [Finset.card_range, nsmul_eq_mul] at hsum

end Weighing

/-! ## Bounded tables -/

namespace BoltzmannTable

variable {t base : BoltzmannTable K} {touched : List K} {appended : Nat} {energy' : Nat → K}

theorem Intact.total_le_shift (h : Intact base)
    (hmono : ∀ x y : K, x ≤ y → Scalar.exp x ≤ Scalar.exp y)
    (htemperature : 0 < base.weighing.temperature)
    (hbase : Weighs base.validWeights n energy base.weighing)
    (hcovers : ∀ label < n, base.weighing.Covers (energy label)) :
    base.total ≤ n * Scalar.exp base.weighing.shift := by
  rw [h.total_eq, hbase.sum_eq]
  exact Weighing.sum_weight_le hmono htemperature hcovers

/-- A patched table has every label at most once from its build and once from the patch. -/
theorem Intact.total_perturb_le_shift (h : Intact base) (hexp : ∀ x : K, 0 < Scalar.exp x)
    (hmono : ∀ x y : K, x ≤ y → Scalar.exp x ≤ Scalar.exp y)
    (htemperature : 0 < base.weighing.temperature)
    (hbase : Weighs base.validWeights n energy base.weighing)
    (hpatched : Weighs t.validWeights n energy' base.weighing)
    (hsizes : ∀ e level, s.level? e = some level → 0 < level.size)
    (hperturb : base.perturb s touched = .ok (t, appended))
    (hcovers : ∀ label < n, base.weighing.Covers (energy label))
    (hcovers' : ∀ label < n, base.weighing.Covers (energy' label)) :
    t.total ≤ 2 * (n : K) * Scalar.exp base.weighing.shift := by
  calc t.total
      ≤ ∑ label ∈ Finset.range n, base.weighing.weight (energy label) 1 +
          ∑ label ∈ Finset.range n, base.weighing.weight (energy' label) 1 :=
        h.total_perturb_le hexp hbase hpatched hsizes hperturb
    _ ≤ n * Scalar.exp base.weighing.shift + n * Scalar.exp base.weighing.shift :=
        add_le_add (Weighing.sum_weight_le hmono htemperature hcovers)
          (Weighing.sum_weight_le hmono htemperature hcovers')
    _ = 2 * (n : K) * Scalar.exp base.weighing.shift := by ring

end BoltzmannTable

end Potts

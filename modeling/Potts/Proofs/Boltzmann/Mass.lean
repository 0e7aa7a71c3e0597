import Mathlib.Algebra.BigOperators.Ring.Finset
import Mathlib.Algebra.Order.BigOperators.Group.List
import Mathlib.Algebra.Order.BigOperators.Ring.Finset
import Mathlib.Tactic.GCongr
import Potts.Proofs.Boltzmann.Weights

/-!
# The mass of a table

In exact arithmetic the total of a table is the sum of what its entries weigh, and the weights of a
list that weighs labels sum up to what the labels weigh one by one. A patch leaves in the total what
it marks as invalid, so the total of a patched table may exceed what is valid, but by no more than
what the table weighed before. If the patch takes no label to a higher energy, then no label weighs
less than before, and at least half of the total is valid.
-/

namespace Potts.BoltzmannTable

variable {K : Type} [ExactScalar K] {t base : BoltzmannTable K} {s : Spectrum K}
  {entries : List (TableEntry K)} {touched : List K} {weights : List (K × K)} {w : Weighing K}
  {n appended : Nat} {energy energy' : Nat → K}

/-! ## Totals -/

theorem lastBound_eq_add_sum {previous : K} (h : ∀ entry ∈ entries, entry.valid = true) :
    lastBound previous entries = previous + ((ownWeights previous entries).map Prod.snd).sum := by
  induction entries generalizing previous with
  | nil => exact (add_zero previous).symm
  | cons entry entries ih =>
    obtain ⟨hentry, hentries⟩ := List.forall_mem_cons.1 h
    rw [lastBound_cons, ih hentries, ownWeights, if_pos hentry, List.map_cons, List.sum_cons,
      ← add_assoc, add_sub_cancel]

theorem Intact.total_eq (h : Intact base) :
    base.total = (base.validWeights.map Prod.snd).sum := by
  have hvalid : ∀ entry ∈ base.entries.toList, entry.valid = true := fun entry hentry =>
    h.valid entry (Array.mem_toList_iff.1 hentry)
  rw [total_eq_lastBound, lastBound_eq_add_sum hvalid, Scalar.zero_eq, zero_add, validWeights,
    Scalar.zero_eq]

theorem Intact.total_perturb (h : Intact base) (hexp : ∀ x : K, 0 < Scalar.exp x)
    (hsizes : ∀ e level, s.level? e = some level → 0 < level.size)
    (hperturb : base.perturb s touched = .ok (t, appended)) :
    t.total = base.total + ((touchedWeights base.weighing s touched).map Prod.snd).sum := by
  rw [h.perturb_eq] at hperturb
  cases hperturb
  have hvalid : ∀ entry ∈ appendedEntries base.weighing s base.total touched,
      entry.valid = true := fun entry hentry => (of_mem_appendedEntries hentry).1
  rw [total_patched_eq_lastBound, List.toList_toArray, lastBound_eq_add_sum hvalid,
    ownWeights_appendedEntries hexp hsizes]

/-! ## Weights of labels -/

theorem Weighs.sum_eq (h : Weighs weights n energy w) :
    (weights.map Prod.snd).sum = ∑ label ∈ Finset.range n, w.weight (energy label) 1 := by
  have hsnd : weights.map Prod.snd =
      (weights.map Prod.fst).map fun e => w.weight e (labelsAt n energy e) := by
    rw [List.map_map]
    refine List.map_congr_left fun x hx => ?_
    exact ((h.mem_iff x).1 hx).2
  have henergies : (weights.map Prod.fst).toFinset = (Finset.range n).image energy := by
    ext e
    rw [List.mem_toFinset, h.mem_energies, Finset.mem_image]
    simp only [Finset.mem_range]
  have hweight : ∀ e (size : Nat), w.weight e size = size • w.weight e 1 := by
    intro e size
    rw [Weighing.weight, Weighing.weight, nsmul_eq_mul, Nat.cast_one]
    ring
  rw [hsnd, ← List.sum_toFinset _ h.nodup, henergies,
    Finset.sum_comp (fun e => w.weight e 1) energy]
  refine Finset.sum_congr rfl fun e _ => ?_
  rw [hweight, labelsAt]

theorem Intact.total_perturb_le (h : Intact base) (hexp : ∀ x : K, 0 < Scalar.exp x)
    (hbase : Weighs base.validWeights n energy base.weighing)
    (hpatched : Weighs t.validWeights n energy' base.weighing)
    (hsizes : ∀ e level, s.level? e = some level → 0 < level.size)
    (hperturb : base.perturb s touched = .ok (t, appended)) :
    t.total ≤ ∑ label ∈ Finset.range n, base.weighing.weight (energy label) 1 +
      ∑ label ∈ Finset.range n, base.weighing.weight (energy' label) 1 := by
  have hkept :
      0 ≤ ((base.validWeights.filter fun x => decide (x.1 ∉ touched)).map Prod.snd).sum := by
    apply List.sum_nonneg
    intro weight hweight
    obtain ⟨x, hx, rfl⟩ := List.mem_map.1 hweight
    rw [((hbase.mem_iff x).1 (List.mem_filter.1 hx).1).2]
    exact weight_nonneg hexp _ _ _
  rw [h.total_perturb hexp hsizes hperturb, h.total_eq, hbase.sum_eq, ← hpatched.sum_eq,
    h.validWeights_perturb hexp hsizes hperturb, List.map_append, List.sum_append]
  exact add_le_add_right (le_add_of_nonneg_left hkept) _

theorem weight_le_weight (hmono : ∀ x y : K, x ≤ y → Scalar.exp x ≤ Scalar.exp y)
    (htemperature : 0 < w.temperature) {e e' : K} (h : e' ≤ e) (size : Nat) :
    w.weight e size ≤ w.weight e' size := by
  unfold Weighing.weight
  refine mul_le_mul_of_nonneg_right (hmono _ _ ?_) (Nat.cast_nonneg size)
  gcongr

/-- If a patch takes no label to a higher energy, at least half of the total is valid. -/
theorem Intact.total_perturb_le_two_mul (h : Intact base) (hexp : ∀ x : K, 0 < Scalar.exp x)
    (hmono : ∀ x y : K, x ≤ y → Scalar.exp x ≤ Scalar.exp y)
    (htemperature : 0 < base.weighing.temperature)
    (hbase : Weighs base.validWeights n energy base.weighing)
    (hpatched : Weighs t.validWeights n energy' base.weighing)
    (hle : ∀ label < n, energy' label ≤ energy label)
    (hsizes : ∀ e level, s.level? e = some level → 0 < level.size)
    (hperturb : base.perturb s touched = .ok (t, appended)) :
    t.total ≤ 2 * (t.validWeights.map Prod.snd).sum := by
  have hweights : ∑ label ∈ Finset.range n, base.weighing.weight (energy label) 1 ≤
      ∑ label ∈ Finset.range n, base.weighing.weight (energy' label) 1 :=
    Finset.sum_le_sum fun label hlabel =>
      weight_le_weight hmono htemperature (hle label (Finset.mem_range.1 hlabel)) 1
  calc t.total
      ≤ ∑ label ∈ Finset.range n, base.weighing.weight (energy label) 1 +
          ∑ label ∈ Finset.range n, base.weighing.weight (energy' label) 1 :=
        h.total_perturb_le hexp hbase hpatched hsizes hperturb
    _ ≤ ∑ label ∈ Finset.range n, base.weighing.weight (energy' label) 1 +
          ∑ label ∈ Finset.range n, base.weighing.weight (energy' label) 1 :=
        add_le_add_left hweights _
    _ = 2 * (t.validWeights.map Prod.snd).sum := by rw [hpatched.sum_eq, two_mul]

end Potts.BoltzmannTable

import Mathlib.Analysis.Complex.ExponentialBounds
import Mathlib.MeasureTheory.Measure.Lebesgue.Basic
import Mathlib.MeasureTheory.Measure.Real
import Potts.Proofs.Boltzmann.Draw
import Potts.Proofs.Scalar.Real

/-!
# The chances of a draw

With real numbers a trial of a draw lands on each entry with a chance that is proportional to what
the entry weighs, except that the last entry is also given what the sum of all weights lacks of the
spacing of the numbers at one. So among the accepted trials the valid entries have their shares.
When the sum is at least the spacing nothing is lacking, and the shares are those of the weights.
-/

namespace Potts.BoltzmannTable

open MeasureTheory

/-! ## Shares -/

section Share

variable {F : Type} [Scalar F]

/-- What an entry weighs: how much its bound exceeds the one before it. -/
def ownWeight (t : BoltzmannTable F) (i : Nat) : F := t.boundBefore (i + 1) - t.boundBefore i

/-- What an entry takes of the span: its weight, and for the last entry also what the sum of all
weights lacks of the span. -/
def share (t : BoltzmannTable F) (i : Nat) : F :=
  if i + 1 = t.entries.size then t.ownWeight i + (t.span - t.total) else t.ownWeight i

/-- The positions of the valid entries. -/
def validPositions (t : BoltzmannTable F) : Finset Nat :=
  (Finset.range t.entries.size).filter fun i => t.entries[i]?.any TableEntry.valid = true

/-- A number from `[0, 1)` makes a trial that is accepted: it lands on a valid entry. -/
def Accepts (t : BoltzmannTable F) (u : F) : Prop :=
  ∃ entry, t.entries[t.landing (u * t.span)]? = some entry ∧ entry.valid = true

theorem mem_validPositions {t : BoltzmannTable F} {i : Nat} :
    i ∈ t.validPositions ↔ ∃ entry, t.entries[i]? = some entry ∧ entry.valid = true := by
  rw [validPositions, Finset.mem_filter, Finset.mem_range, Option.any_eq_true]
  refine and_iff_right_of_imp ?_
  rintro ⟨entry, hentry, -⟩
  exact (Array.getElem?_eq_some_iff.1 hentry).1

end Share

theorem total_le_span {K : Type} [ExactScalar K] (t : BoltzmannTable K) : t.total ≤ t.span :=
  le_max_left _ _

variable {t : BoltzmannTable ℝ} {i : Nat} {u : ℝ}

theorem span_pos (t : BoltzmannTable ℝ) : 0 < t.span := by
  have hepsilon : (0 : ℝ) < 1 / 2 ^ 52 := by positivity
  exact hepsilon.trans_le (le_max_right _ _)

theorem boundBefore_add_share (t : BoltzmannTable ℝ) (i : Nat) :
    t.boundBefore i + t.share i =
      if i + 1 = t.entries.size then t.span else t.boundBefore (i + 1) := by
  rw [share, ownWeight]
  split
  · rename_i hlast
    rw [hlast, boundBefore_size]
    ring
  · ring

theorem Ascends.share_pos (h : t.Ascends) (hi : i < t.entries.size) : 0 < t.share i := by
  have hlt := h.boundBefore_lt hi
  have hspan := t.total_le_span
  rw [share, ownWeight]
  split <;> linarith

theorem Ascends.share_le (h : t.Ascends) (hi : i < t.entries.size) :
    t.boundBefore i + t.share i ≤ t.span := by
  rw [boundBefore_add_share]
  split
  · exact le_rfl
  · have hle := h.boundBefore_le (Nat.succ_le_of_lt hi) le_rfl
    rw [boundBefore_size] at hle
    exact hle.trans t.total_le_span

/-- The numbers that land on an entry are an interval, as long as its share of the span. -/
theorem Ascends.setOf_landing (h : t.Ascends) (hi : i < t.entries.size) :
    {u ∈ Set.Ico (0 : ℝ) 1 | t.landing (u * t.span) = i} =
      Set.Ico (t.boundBefore i / t.span) ((t.boundBefore i + t.share i) / t.span) := by
  have hspan := t.span_pos
  have hshare := h.share_le hi
  have hnonneg := h.boundBefore_nonneg hi.le
  ext u
  rw [Set.mem_sep_iff, Set.mem_Ico, Set.mem_Ico, div_le_iff₀ hspan, lt_div_iff₀ hspan]
  constructor
  · rintro ⟨⟨hzero, hone⟩, hlanding⟩
    obtain ⟨hlow, hhigh⟩ := (h.landing_eq_iff (mul_nonneg hzero hspan.le) hi).1 hlanding
    refine ⟨hlow, ?_⟩
    rw [boundBefore_add_share]
    split
    · exact (mul_lt_iff_lt_one_left hspan).2 hone
    · rename_i hlast
      exact hhigh.resolve_right hlast
  · rintro ⟨hlow, hhigh⟩
    have hzero : 0 ≤ u := nonneg_of_mul_nonneg_left (hnonneg.trans hlow) hspan
    have hone : u < 1 := (mul_lt_iff_lt_one_left hspan).1 (hhigh.trans_le hshare)
    refine ⟨⟨hzero, hone⟩, (h.landing_eq_iff (mul_nonneg hzero hspan.le) hi).2 ⟨hlow, ?_⟩⟩
    rw [boundBefore_add_share] at hhigh
    split at hhigh
    · rename_i hlast
      exact Or.inr hlast
    · exact Or.inl hhigh

/-! ## Chances -/

/-- The chance of an event for a number that is drawn uniformly from `[0, 1)`. -/
noncomputable def chance (event : ℝ → Prop) : ℝ :=
  volume.real {u ∈ Set.Ico (0 : ℝ) 1 | event u}

theorem Ascends.chance_landing (h : t.Ascends) (hi : i < t.entries.size) :
    chance (fun u => t.landing (u * t.span) = i) = t.share i / t.span := by
  have hle : t.boundBefore i / t.span ≤ (t.boundBefore i + t.share i) / t.span := by
    apply div_le_div_of_nonneg_right _ t.span_pos.le
    linarith [h.share_pos hi]
  rw [chance, h.setOf_landing hi, Real.volume_real_Ico_of_le hle, add_div, add_sub_cancel_left]

theorem Ascends.chance_accepts (h : t.Ascends) :
    chance t.Accepts = (∑ i ∈ t.validPositions, t.share i) / t.span := by
  have hlt : ∀ i ∈ t.validPositions, i < t.entries.size := fun i hi =>
    Finset.mem_range.1 (Finset.mem_filter.1 hi).1
  have hunion : {u ∈ Set.Ico (0 : ℝ) 1 | t.Accepts u} = ⋃ i ∈ t.validPositions,
      {u ∈ Set.Ico (0 : ℝ) 1 | t.landing (u * t.span) = i} := by
    ext u
    simp only [Set.mem_sep_iff, Set.mem_iUnion, exists_prop]
    constructor
    · rintro ⟨hu, haccepts⟩
      exact ⟨_, mem_validPositions.2 haccepts, hu, rfl⟩
    · rintro ⟨i, hi, hu, rfl⟩
      exact ⟨hu, mem_validPositions.1 hi⟩
  have hdisjoint : (t.validPositions : Set Nat).PairwiseDisjoint fun i =>
      {u ∈ Set.Ico (0 : ℝ) 1 | t.landing (u * t.span) = i} := by
    intro i _ j _ hij
    rw [Function.onFun, Set.disjoint_left]
    rintro u ⟨-, hi⟩ ⟨-, hj⟩
    exact hij (hi.symm.trans hj)
  have hmeasurable : ∀ i ∈ t.validPositions,
      MeasurableSet {u ∈ Set.Ico (0 : ℝ) 1 | t.landing (u * t.span) = i} := by
    intro i hi
    rw [h.setOf_landing (hlt i hi)]
    exact measurableSet_Ico
  have hfinite : ∀ i ∈ t.validPositions,
      volume {u ∈ Set.Ico (0 : ℝ) 1 | t.landing (u * t.span) = i} ≠ ⊤ := by
    intro i hi
    rw [h.setOf_landing (hlt i hi)]
    exact measure_Ico_lt_top.ne
  rw [chance, hunion, measureReal_biUnion_finset hdisjoint hmeasurable hfinite, Finset.sum_div]
  exact Finset.sum_congr rfl fun i hi => h.chance_landing (hlt i hi)

/-- Of every table that patches lead to from a build, as long as it has a valid entry: a draw goes
through its trials. A trial lands on an entry when the number, scaled to the span, is at least the
bound before the entry and below its own, and the last entry takes what is above all bounds. An
entry that is not valid leads to the next trial. And an accepted trial returns a valid entry with a
chance that is proportional to its share of the span: its weight, and for the last entry also what
the sum of the weights lacks of the spacing of the numbers at one. -/
theorem draw_chances (t : BoltzmannTable ℝ) (ht : t.Reached)
    (hvalid : ∃ entry ∈ t.entries, entry.valid = true) :
    (∀ (R : Type) [RandomSource R] (r : R), t.draw r = t.drawWithin maxTries r ∧
      ∀ tries, ∃ entry,
        t.entries[t.landing ((RandomSource.unit r : ℝ × R).1 * t.span)]? = some entry ∧
        t.drawWithin (tries + 1) r =
          if entry.valid then .ok (some entry.energy, (RandomSource.unit r : ℝ × R).2)
          else t.drawWithin tries (RandomSource.unit r : ℝ × R).2) ∧
    (∀ u ∈ Set.Ico (0 : ℝ) 1, ∀ i < t.entries.size,
      t.landing (u * t.span) = i ↔ t.boundBefore i ≤ u * t.span ∧
        (u * t.span < t.boundBefore (i + 1) ∨ i + 1 = t.entries.size)) ∧
    (∀ i ∈ t.validPositions, 0 < t.ownWeight i ∧ 0 < chance t.Accepts ∧
      chance (fun u => t.landing (u * t.span) = i) / chance t.Accepts =
        t.share i / ∑ j ∈ t.validPositions, t.share j) ∧
    ((1 : ℝ) / 2 ^ 52 ≤ t.total → t.span = t.total ∧ ∀ i, t.share i = t.ownWeight i) := by
  have hexp : ∀ x : ℝ, 0 < (Scalar.exp x : ℝ) := Real.exp_pos
  obtain ⟨-, -, -, -, -, -, hascends⟩ := ht.exists_patched hexp
  obtain ⟨entry, hmem, hentry⟩ := hvalid
  have hsize := Array.size_pos_of_mem hmem
  have hspan := t.span_pos
  refine ⟨fun R _ r => ⟨ht.draw_eq hexp ⟨entry, hmem, hentry⟩ r, fun tries =>
    drawWithin_succ hsize tries r⟩, fun u hu i hi =>
      hascends.landing_eq_iff (mul_nonneg hu.1 hspan.le) hi, fun i hi => ?_, fun htotal => ?_⟩
  · have hlt : i < t.entries.size := Finset.mem_range.1 (Finset.mem_filter.1 hi).1
    have hsum : 0 < ∑ j ∈ t.validPositions, t.share j :=
      Finset.sum_pos (fun j hj =>
        hascends.share_pos (Finset.mem_range.1 (Finset.mem_filter.1 hj).1)) ⟨i, hi⟩
    refine ⟨sub_pos.2 (hascends.boundBefore_lt hlt), ?_, ?_⟩
    · rw [hascends.chance_accepts]
      exact div_pos hsum hspan
    · rw [hascends.chance_landing hlt, hascends.chance_accepts, div_div_div_cancel_right₀ hspan.ne']
  · have heq : t.span = t.total := max_eq_left htotal
    refine ⟨heq, fun i => ?_⟩
    rw [share, heq, sub_self, add_zero, ite_self]

/-! ## A faint table -/

theorem entries_addLevel (t : BoltzmannTable ℝ) {level : ℝ × LabelSet} (hsize : 0 < level.2.size) :
    (t.addLevel level).entries = t.entries.push
      ⟨t.total + t.weighing.weight level.1 level.2.size, level.1, true⟩ := by
  rw [addLevel, append?_eq, entryFor?_of_pos (weight_pos Real.exp_pos t.weighing level.1 hsize)]
  rfl

theorem entries_two (w : Weighing ℝ) (first second : ℝ × LabelSet) (hfirst : 0 < first.2.size)
    (hsecond : 0 < second.2.size) :
    ([first, second].foldl addLevel (empty w)).entries =
      #[⟨w.weight first.1 first.2.size, first.1, true⟩,
        ⟨w.weight first.1 first.2.size + w.weight second.1 second.2.size, second.1, true⟩] := by
  have hone : ((empty w).addLevel first).entries =
      #[⟨w.weight first.1 first.2.size, first.1, true⟩] := by
    have hzero : (empty w).total = 0 := Scalar.zero_eq
    rw [entries_addLevel _ hfirst, hzero, zero_add]
    rfl
  rw [List.foldl_cons, List.foldl_cons, List.foldl_nil, entries_addLevel _ hsecond, total, hone,
    weighing_addLevel]
  rfl

/-- A spectrum with one label at the energy zero and one at the energy one. -/
noncomputable def twoLevels : Spectrum ℝ where
  levels := {
    entries := [(0, SortedSet.add .empty 0), (1, SortedSet.add .empty 1)]
    ascending := List.pairwise_pair.2 (compare_lt_iff_lt.2 one_pos) }

/-- A table with two entries, whose weights are far below the spacing of the numbers at one. -/
noncomputable def faint : BoltzmannTable ℝ := build twoLevels 0 0 1 (-100)

theorem entries_faint : faint.entries =
    #[⟨Real.exp (-100), 0, true⟩, ⟨Real.exp (-100) + Real.exp (-101), 1, true⟩] := by
  have hceiling : Weighing.ceilingOf 0 (0 : ℝ) (some 0) = 0 := by
    change max _ _ = _
    simp
  have hweight : ∀ e : ℝ, Weighing.weight ⟨((0 : Nat) : ℝ), 0, 1, -100⟩ e 1 =
      Real.exp (-100 - e) := by
    intro e
    have hexponent : (-e - ((0 : Nat) : ℝ) - 0) / 1 + -100 = -100 - e := by
      rw [Nat.cast_zero]
      ring
    rw [Weighing.weight, hexponent, Nat.cast_one, mul_one]
    rfl
  have hsize : ∀ a : Nat, SortedMap.size (SortedSet.add .empty a : LabelSet) = 1 := fun _ => rfl
  have hbuilt : faint.entries = (twoLevels.toList.foldl addLevel
      (empty ⟨((0 : Nat) : ℝ), Weighing.ceilingOf 0 0 (some 0), 1, -100⟩)).entries := rfl
  have htwo := entries_two ⟨((0 : Nat) : ℝ), 0, 1, -100⟩ (0, SortedSet.add .empty 0)
    (1, SortedSet.add .empty 1) (by decide) (by decide)
  rw [hbuilt, hceiling]
  refine htwo.trans ?_
  simp only [hsize, hweight]
  norm_num

theorem getElem?_faint : faint.entries[0]? = some ⟨Real.exp (-100), 0, true⟩ := by
  rw [entries_faint]
  rfl

theorem total_faint : faint.total = Real.exp (-100) + Real.exp (-101) := by
  rw [total, entries_faint]
  rfl

theorem total_faint_lt : faint.total < 1 / 2 ^ 53 := by
  have hsmall : Real.exp (-100) < 1 / 2 ^ 100 := by
    have hpow : Real.exp 100 = Real.exp 1 ^ 100 := by
      rw [← Real.exp_nat_mul]
      norm_num
    rw [Real.exp_neg, ← one_div, hpow]
    refine one_div_lt_one_div_of_lt (by positivity) ?_
    exact pow_lt_pow_left₀ Real.exp_one_gt_two (by norm_num) (by norm_num)
  have hless : Real.exp (-101) < Real.exp (-100) := Real.exp_lt_exp.2 (by norm_num)
  have hbound : (1 : ℝ) / 2 ^ 100 + 1 / 2 ^ 100 < 1 / 2 ^ 53 := by norm_num
  rw [total_faint]
  linarith

/-- On the faint table the middle number is in the part of the first entry but lands on the second:
the table is reached, its sum is positive and its entries are valid, and still a trial does not
divide the sum of the weights by the bounds. -/
theorem landing_faint_ne :
    faint.Reached ∧ 0 < faint.total ∧ (∃ entry ∈ faint.entries, entry.valid = true) ∧
      (faint.boundBefore 0 ≤ 1 / 2 * faint.total ∧ 1 / 2 * faint.total < faint.boundBefore 1) ∧
      faint.landing (1 / 2 * faint.span) = 1 ∧
      ¬∀ u ∈ Set.Ico (0 : ℝ) 1, ∀ i < faint.entries.size,
        faint.landing (u * faint.span) = i ↔
          faint.boundBefore i ≤ u * faint.total ∧ u * faint.total < faint.boundBefore (i + 1) := by
  have hreached : faint.Reached := .build twoLevels 0 0 1 (-100)
  obtain ⟨-, -, -, -, -, -, hascends⟩ := hreached.exists_patched Real.exp_pos
  have hsize : faint.entries.size = 2 := by rw [entries_faint]; rfl
  have hpos : 0 < faint.total := by
    rw [total_faint]
    positivity
  have hfirst : faint.boundBefore 1 = Real.exp (-100) := boundBefore_succ getElem?_faint
  have hsecond : faint.boundBefore 2 = faint.total := by
    rw [← hsize, boundBefore_size]
  have hin : faint.boundBefore 0 ≤ 1 / 2 * faint.total ∧
      1 / 2 * faint.total < faint.boundBefore 1 := by
    have hless : Real.exp (-101) < Real.exp (-100) := Real.exp_lt_exp.2 (by norm_num)
    rw [boundBefore_zero, Scalar.zero_eq, hfirst, total_faint]
    constructor
    · positivity
    · linarith
  have hlanding : faint.landing (1 / 2 * faint.span) = 1 := by
    have hspan : (1 : ℝ) / 2 ^ 52 ≤ faint.span := le_max_right _ _
    have habove : faint.total ≤ 1 / 2 * faint.span := by
      have hlt := total_faint_lt
      linarith
    refine (hascends.landing_eq_iff (hpos.le.trans habove) (by omega)).2 ⟨?_, Or.inr hsize.symm⟩
    exact (hascends.boundBefore_le (by omega) (by omega : 2 ≤ _)).trans (hsecond.trans_le habove)
  refine ⟨hreached, hpos, ⟨_, Array.mem_of_getElem? getElem?_faint, rfl⟩, hin, hlanding,
    fun hall => ?_⟩
  have hzero := (hall (1 / 2) ⟨by norm_num, by norm_num⟩ 0 (by omega)).2 hin
  rw [hlanding] at hzero
  exact one_ne_zero hzero

theorem draw_chances_faint :
    faint.Reached ∧ (∃ entry ∈ faint.entries, entry.valid = true) ∧
      chance (fun u => faint.landing (u * faint.span) = 0) / chance faint.Accepts =
        faint.share 0 / ∑ j ∈ faint.validPositions, faint.share j := by
  have hreached : faint.Reached := .build twoLevels 0 0 1 (-100)
  have hvalid : ∃ entry ∈ faint.entries, entry.valid = true :=
    ⟨_, Array.mem_of_getElem? getElem?_faint, rfl⟩
  obtain ⟨-, -, hshares, -⟩ := draw_chances faint hreached hvalid
  exact ⟨hreached, hvalid, (hshares 0 (mem_validPositions.2 ⟨_, getElem?_faint, rfl⟩)).2.2⟩

end Potts.BoltzmannTable

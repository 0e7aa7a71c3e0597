import Potts.Proofs.Boltzmann.Chances
import Potts.Proofs.Boltzmann.Mass

/-!
# How often trials are accepted

A trial is rejected when it lands on an entry that a patch has marked as invalid. If the valid
entries weigh at least half of the total and the last entry is valid, then the valid entries have at
least half of the span, also when the span is wider than the total, and a trial is accepted with a
chance of at least one half.
-/

namespace Potts.BoltzmannTable

variable {K : Type} [ExactScalar K] {t base : BoltzmannTable K} {s : Spectrum K}
  {touched : List K} {e : K} {appended : Nat}

/-! ## The weights of the valid entries -/

theorem sum_map_ownWeights (previous : K) (entries : List (TableEntry K)) :
    ((ownWeights previous entries).map Prod.snd).sum =
      ∑ i ∈ Finset.range entries.length, if entries[i]?.any TableEntry.valid = true then
        lastBound previous (entries.take (i + 1)) - lastBound previous (entries.take i) else 0 := by
  induction entries generalizing previous with
  | nil => rfl
  | cons entry entries ih =>
    rw [List.length_cons, Finset.sum_range_succ']
    simp only [List.getElem?_cons_succ, List.take_succ_cons, lastBound_cons]
    rw [← ih, ownWeights]
    cases hvalid : entry.valid <;> simp [hvalid, lastBound, add_comm]

theorem sum_ownWeight (t : BoltzmannTable K) :
    ∑ i ∈ t.validPositions, t.ownWeight i = (t.validWeights.map Prod.snd).sum := by
  rw [validWeights, sum_map_ownWeights, validPositions, Finset.sum_filter, Array.length_toList]
  refine Finset.sum_congr rfl fun i _ => ?_
  rw [Array.getElem?_toList]
  rfl

/-- The last entry of the table is valid. -/
def EndsValid (t : BoltzmannTable K) : Prop :=
  ∃ entry, t.entries.back? = some entry ∧ entry.valid = true

theorem EndsValid.sum_share (h : t.EndsValid) :
    ∑ i ∈ t.validPositions, t.share i =
      ∑ i ∈ t.validPositions, t.ownWeight i + (t.span - t.total) := by
  obtain ⟨entry, hback, hvalid⟩ := h
  rw [Array.back?_eq_getElem?] at hback
  have hlast : t.entries.size - 1 ∈ t.validPositions := mem_validPositions.2 ⟨entry, hback, hvalid⟩
  have hlt := (Array.getElem?_eq_some_iff.1 hback).1
  have hshare : ∀ i, t.share i =
      t.ownWeight i + if i = t.entries.size - 1 then t.span - t.total else 0 := by
    intro i
    have hiff : i + 1 = t.entries.size ↔ i = t.entries.size - 1 := by omega
    rw [share, if_congr hiff rfl rfl]
    split
    · rfl
    · exact (add_zero _).symm
  simp only [hshare, Finset.sum_add_distrib]
  rw [Finset.sum_ite_eq', if_pos hlast]

theorem EndsValid.span_le (h : t.EndsValid)
    (htotal : t.total ≤ 2 * ∑ i ∈ t.validPositions, t.ownWeight i) :
    t.span ≤ 2 * ∑ i ∈ t.validPositions, t.share i := by
  have hspan := t.total_le_span
  rw [h.sum_share]
  linarith

/-- If at least half of the span is valid, a trial is accepted with a chance of at least one
half. -/
theorem Ascends.half_le_chance {t : BoltzmannTable ℝ} (h : t.Ascends)
    (hspan : t.span ≤ 2 * ∑ i ∈ t.validPositions, t.share i) : 1 / 2 ≤ chance t.Accepts := by
  rw [h.chance_accepts, div_le_div_iff₀ two_pos t.span_pos]
  linarith

/-! ## What a patch marks and what it appends -/

theorem exists_mem_appendedEntries (hexp : ∀ x : K, 0 < Scalar.exp x)
    (hsizes : ∀ e level, s.level? e = some level → 0 < level.size) (w : Weighing K) (bound : K)
    {level : LabelSet} (he : e ∈ touched) (hlevel : s.level? e = some level) :
    ∃ entry ∈ appendedEntries w s bound touched, entry.energy = e := by
  induction touched generalizing bound with
  | nil => cases he
  | cons first touched ih =>
    rw [appendedEntries]
    rcases List.mem_cons.1 he with rfl | he
    · rw [hlevel, Option.bind_some, entryFor?_of_pos (weight_pos hexp w e (hsizes e level hlevel))]
      exact ⟨_, List.mem_cons_self, rfl⟩
    · split
      · exact ih _ he
      · obtain ⟨entry, hentry, henergy⟩ := ih _ he
        exact ⟨entry, List.mem_cons_of_mem _ hentry, henergy⟩

theorem Intact.of_mem_invalid (h : Intact base)
    (hperturb : base.perturb s touched = .ok (t, appended)) {entry : TableEntry K}
    (hmem : entry ∈ t.entries) (hinvalid : entry.valid = false) :
    entry.energy ∈ touched ∧ ∃ built ∈ base.entries, built.energy = entry.energy := by
  rw [← Array.mem_toList_iff, h.toList_perturb hperturb] at hmem
  rcases List.mem_append.1 hmem with hmem | hmem
  · obtain ⟨built, hbuilt, rfl⟩ := List.mem_map.1 hmem
    exact ⟨by simpa using hinvalid, built, Array.mem_toList_iff.1 hbuilt, rfl⟩
  · rw [(of_mem_appendedEntries hmem).1] at hinvalid
    cases hinvalid

theorem Intact.endsValid_perturb (h : Intact base) (hexp : ∀ x : K, 0 < Scalar.exp x)
    (hsizes : ∀ e level, s.level? e = some level → 0 < level.size)
    (hperturb : base.perturb s touched = .ok (t, appended)) (hsize : 0 < base.entries.size)
    (htouched : ∀ built ∈ base.entries, built.energy ∈ touched →
      ∃ e ∈ touched, ∃ level, s.level? e = some level) : t.EndsValid := by
  have htoList := h.toList_perturb hperturb
  obtain ⟨last, hlast⟩ : ∃ last, t.entries.toList.getLast? = some last := by
    rw [htoList, ← Option.isSome_iff_exists, List.getLast?_isSome]
    intro hnil
    rw [List.append_eq_nil_iff, List.map_eq_nil_iff, Array.toList_eq_nil_iff] at hnil
    rw [hnil.1] at hsize
    exact absurd hsize (lt_irrefl 0)
  have hback : t.entries.back? = some last := by rwa [← Array.getLast?_toList]
  refine ⟨last, hback, ?_⟩
  by_contra hvalid
  obtain ⟨hinvalid, built, hbuilt, henergy⟩ := h.of_mem_invalid hperturb
    (Array.mem_of_back? hback) (Bool.eq_false_iff.2 hvalid)
  rw [← henergy] at hinvalid
  obtain ⟨e, he, level, hlevel⟩ := htouched built hbuilt hinvalid
  obtain ⟨entry, hentry, -⟩ := exists_mem_appendedEntries hexp hsizes base.weighing base.total he
    hlevel
  -- so something is appended, the last entry is an appended one, and these are valid
  rw [htoList, List.getLast?_append_of_ne_nil _ (List.ne_nil_of_mem hentry)] at hlast
  exact hvalid (of_mem_appendedEntries (List.mem_of_getLast? hlast)).1

end Potts.BoltzmannTable

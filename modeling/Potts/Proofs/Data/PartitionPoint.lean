import Potts.Data.PartitionPoint

/-!
# Where a test stops to hold

On a row of positions where a test, once it fails, fails for good, halving finds the number of
leading positions at which the test holds.
-/

namespace Potts

variable {test : Nat → Bool} {size base : Nat}

/-- Once the test fails in a row of `size` positions it fails for good. -/
def Leading (test : Nat → Bool) (size : Nat) : Prop :=
  ∀ i j, i ≤ j → j < size → test j = true → test i = true

/-- Narrowing ends in the range, behind a position where the test holds or at the start, and the
test fails further on. -/
theorem narrow_spec (hsize : 0 < size) (h : Leading test (base + size)) :
    narrow test size base < base + size ∧
      (narrow test size base = base ∨ test (narrow test size base) = true) ∧
      ∀ i, narrow test size base < i → i < base + size → test i = false := by
  fun_induction narrow test size base with
  | case1 size base hlt half ih =>
    have hhalf : half = size / 2 := rfl
    by_cases htest : test (base + half) = true
    · -- the upper half is kept
      have hend : base + half + (size - half) = base + size := by omega
      simp only [htest, if_true, dite_true] at ih ⊢
      rw [hend] at ih
      obtain ⟨hlast, hholds, hfails⟩ := ih (by omega) h
      refine ⟨hlast, Or.inr ?_, hfails⟩
      rcases hholds with hholds | hholds
      · rw [hholds, htest]
      · exact hholds
    · simp only [htest, if_false, dite_false, Bool.false_eq_true] at ih ⊢
      have hlower : Leading test (base + (size - half)) := fun i j hij hj =>
        h i j hij (by omega)
      obtain ⟨hlast, hholds, hfails⟩ := ih (by omega) hlower
      refine ⟨by omega, hholds, fun i hi hisize => ?_⟩
      by_cases hin : i < base + (size - half)
      · exact hfails i hi hin
      · -- the test fails at the half already
        apply Bool.eq_false_iff.2
        intro htrue
        exact htest (h (base + half) i (by omega) hisize htrue)
  | case2 size base hlt =>
    exact ⟨by omega, Or.inl rfl, fun i hi hisize => by omega⟩

theorem partitionPoint_spec (h : Leading test size) :
    partitionPoint test size ≤ size ∧ (∀ i < partitionPoint test size, test i = true) ∧
      ∀ i, partitionPoint test size ≤ i → i < size → test i = false := by
  rw [partitionPoint]
  split
  · exact ⟨by omega, fun i hi => by omega, fun i _ hi => by omega⟩
  · rename_i hsize
    have hleading : Leading test (0 + size) := by rwa [Nat.zero_add]
    obtain ⟨hlt, hholds, hfails⟩ := narrow_spec (by omega : 0 < size) hleading
    rw [Nat.zero_add] at hlt hfails
    dsimp only
    split
    · rename_i hlast
      exact ⟨hlt, fun i hi => h i _ (by omega) hlt hlast, fun i hi => hfails i (by omega)⟩
    · rename_i hlast
      have hstart := hholds.resolve_right hlast
      rw [hstart] at hlast hfails ⊢
      refine ⟨by omega, fun i hi => by omega, fun i _ hi => ?_⟩
      by_cases hzero : i = 0
      · rw [hzero]
        exact Bool.eq_false_iff.2 hlast
      · exact hfails i (by omega) hi

end Potts

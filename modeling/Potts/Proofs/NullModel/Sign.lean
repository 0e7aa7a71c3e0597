import Potts.Proofs.NullModel.Rebuild

/-!
# Expectations are not negative

In exact arithmetic no null model ever expects less than nothing. The independent and the
uncorrelated model divide counts by counts. A row of the correlated model is a sum of parts, and a
part is not negative, as a column keeps positive shares only.
-/

namespace Potts.NullModel

variable {K : Type} [ExactScalar K] {net : Network K} {labels : List Nat}

theorem Independent.Follows.expected_nonneg {m : Independent K}
    (h : Independent.Follows net m labels) (label : Nat) : 0 ≤ m.expected label := by
  rw [h.expected_eq]
  refine mul_nonneg ?_ (Nat.cast_nonneg _)
  change 0 ≤ if Scalar.zero < (net.size : K) then (net.totalDegree : K) / (net.size * net.size)
    else Scalar.zero
  split
  · positivity
  · exact Scalar.zero_eq.ge

theorem Uncorrelated.Follows.expected_nonneg {m : Uncorrelated}
    (h : Uncorrelated.Follows net m labels) (degree label : Nat) :
    0 ≤ (m.expected degree label : K) := by
  rw [h.expected_eq]
  split
  · exact Scalar.zero_eq.ge
  · positivity

namespace Correlated

variable {m : Correlated K}

theorem Follows.pull_nonneg (h : Follows net m labels) (c' c : Nat) : 0 ≤ pull m c' c := by
  apply List.sum_nonneg
  intro part hpart
  obtain ⟨entry, hentry, rfl⟩ := List.mem_map.1 hpart
  have hmem := (List.mem_filter.1 hentry).1
  cases hcolumn : m.columns[c']? with
  | none =>
    rw [hcolumn] at hmem
    cases hmem
  | some column =>
    rw [hcolumn, Option.getD_some] at hmem
    have hpos := (h.columns.of_mem (Array.mem_of_getElem? hcolumn) hmem).2
    rw [Scalar.zero_eq] at hpos
    positivity

theorem Follows.mean_nonneg (h : Follows net m labels) (c label : Nat) : 0 ≤ mean m c label :=
  Finset.sum_nonneg fun c' _ => mul_nonneg (h.pull_nonneg c' c) (Nat.cast_nonneg _)

theorem Follows.expected_nonneg (h : Follows net m labels) (hsummed : m.Summed)
    (degree label : Nat) : 0 ≤ m.expected degree label := by
  cases hclass : m.classOf.get? degree with
  | none =>
    rw [expected_of_no_class hclass]
    exact Scalar.zero_eq.ge
  | some c =>
    obtain ⟨row, hrow⟩ := exists_row_of_class hclass
    rw [expected_of_class hclass hrow]
    change 0 ≤ value row label
    rw [hsummed.value_eq c row hrow]
    exact h.mean_nonneg c label

end Correlated

theorem exists_persists_nonneg (kind : Kind) (net : Network K) :
    ∃ Inv, Persists kind net Inv ∧
      ∀ m labels, Inv m labels → ∀ degree label, 0 ≤ m.expected degree label := by
  refine ⟨_, persists_summed kind net, ?_⟩
  rintro m labels ⟨-, hfollows, hsummed⟩ degree label
  cases m with
  | independent m => exact Independent.Follows.expected_nonneg hfollows label
  | uncorrelated m => exact Uncorrelated.Follows.expected_nonneg hfollows degree label
  | correlated m => exact Correlated.Follows.expected_nonneg hfollows hsummed degree label

end Potts.NullModel

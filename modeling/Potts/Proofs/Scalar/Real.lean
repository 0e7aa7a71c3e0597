import Mathlib.Analysis.SpecialFunctions.Log.Basic
import Potts.Proofs.Graph.Network

/-!
# The real numbers as scalars

The real numbers with the exponential function, the logarithm and the constants of binary floating
point, and small networks with real weights.
-/

namespace Potts

noncomputable instance : ExactScalar ℝ where
  exp := Real.exp
  ln := Real.log
  epsilon := 1 / 2 ^ 52
  greatest := (2 - 1 / 2 ^ 52) * 2 ^ 1023

/-- A network whose edges all weigh one. -/
noncomputable def Network.unit (size : Nat) (pairs : List (Nat × Nat))
    (h : ∀ p ∈ pairs, p.1 ≠ p.2 ∧ max p.1 p.2 < size) : Network ℝ where
  size := size
  edges := pairs.map fun p => ⟨p.1, p.2, 1⟩
  edges_valid := by
    intro e he
    obtain ⟨p, hp, rfl⟩ := List.mem_map.1 he
    exact ⟨(h p hp).1, (h p hp).2, Edge.isUsable_iff.2 zero_le_one⟩
  adjacency := adjacencyRows size (pairs.map fun p => ⟨p.1, p.2, 1⟩)
  adjacency_eq := rfl
  totalWeight := Scalar.sum ((pairs.map fun p => (⟨p.1, p.2, 1⟩ : Edge ℝ)).map Edge.weight)
  totalWeight_eq := rfl

/-- The path on three vertices. -/
noncomputable def Network.path : Network ℝ where
  size := 3
  edges := [⟨0, 1, 1⟩, ⟨1, 2, 1⟩]
  edges_valid := by
    have husable : ∀ source target : Nat, (Edge.mk source target (1 : ℝ)).isUsable = true :=
      fun _ _ => Edge.isUsable_iff.2 zero_le_one
    intro e he
    simp only [List.mem_cons, List.not_mem_nil, or_false] at he
    rcases he with rfl | rfl
    · exact ⟨by decide, by decide, husable 0 1⟩
    · exact ⟨by decide, by decide, husable 1 2⟩
  adjacency := adjacencyRows 3 [⟨0, 1, 1⟩, ⟨1, 2, 1⟩]
  adjacency_eq := rfl
  totalWeight := Scalar.sum [1, 1]
  totalWeight_eq := rfl

end Potts

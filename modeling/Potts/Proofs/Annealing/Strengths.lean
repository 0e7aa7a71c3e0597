import Mathlib.Algebra.Order.Field.Basic
import Potts.Proofs.Annealing.Sweep
import Potts.Proofs.Graph.Strength

/-!
# The strengths of the degree classes

A run keeps for every degree class the largest strength of its vertices, and the shift that belongs
to its number of labels. Both are made at the start, and no sweep changes them.
-/

namespace Potts.Annealing

open Checked

variable {K R : Type} [ExactScalar K] {d : Detector K} {net : Network K} {setting : Setting K}
  {state : State K R} {classOf : List Nat} {a c : Nat} {strength : K}

/-- No vertex of the class has a larger strength; and some vertex has this one, unless it is
zero. -/
structure IsClassStrength (net : Network K) (classOf : List Nat) (c : Nat) (strength : K) :
    Prop where
  strength_le : ∀ v : Nat, classOf[v]? = some c → net.strength v ≤ strength
  attained : strength = 0 ∨ ∃ v : Nat, classOf[v]? = some c ∧ net.strength v = strength

theorem IsClassStrength.concat (h : IsClassStrength net classOf c strength) :
    IsClassStrength net (classOf ++ [c]) c (max strength (net.strength classOf.length)) where
  strength_le v hv := by
    rw [List.getElem?_append] at hv
    split at hv
    · exact (h.strength_le v hv).trans (le_max_left _ _)
    · obtain ⟨hlt, -⟩ := List.getElem?_eq_some_iff.1 hv
      rw [List.length_singleton] at hlt
      have hlast : v = classOf.length := by omega
      rw [hlast]
      exact le_max_right _ _
  attained := by
    rcases max_choice strength (net.strength classOf.length) with hmax | hmax <;> rw [hmax]
    · refine h.attained.imp_right ?_
      rintro ⟨v, hv, heq⟩
      obtain ⟨hlt, -⟩ := List.getElem?_eq_some_iff.1 hv
      exact ⟨v, by rw [List.getElem?_append_left hlt, hv], heq⟩
    · exact Or.inr ⟨classOf.length, List.getElem?_concat_length, rfl⟩

theorem IsClassStrength.concat_of_ne (h : IsClassStrength net classOf c strength) (hne : a ≠ c) :
    IsClassStrength net (classOf ++ [a]) c strength where
  strength_le v hv := by
    rw [List.getElem?_append] at hv
    split at hv
    · exact h.strength_le v hv
    · exact absurd (List.mem_singleton.1 (List.mem_of_getElem? hv)).symm hne
  attained := by
    refine h.attained.imp_right ?_
    rintro ⟨v, hv, heq⟩
    obtain ⟨hlt, -⟩ := List.getElem?_eq_some_iff.1 hv
    exact ⟨v, by rw [List.getElem?_append_left hlt, hv], heq⟩

theorem isClassStrength_classStrengths {classes : Nat} (hsize : classOf.length ≤ net.size)
    {strengths : Array K} (hstrengths : classStrengths net classes classOf = .ok strengths)
    (h : strengths[c]? = some strength) : IsClassStrength net classOf c strength := by
  induction classOf using List.reverseRecOn generalizing strengths strength with
  | nil =>
    cases hstrengths
    refine ⟨?_, Or.inl ?_⟩
    · intro v hv
      cases hv
    · rw [(Array.mem_replicate.1 (Array.mem_of_getElem? h)).2, Scalar.zero_eq]
  | append_singleton classOf a ih =>
    rw [List.length_append, List.length_singleton] at hsize
    rw [classStrengths_concat, net.strengthAt_eq_ok (by omega)] at hstrengths
    obtain ⟨earlier, hearlier, hmodify⟩ := bind_eq_ok.1 hstrengths
    obtain ⟨-, rfl⟩ := eq_modify_of_modify_eq_ok hmodify
    rw [Array.getElem?_modify] at h
    split at h
    · rename_i hac
      obtain ⟨old, hold, rfl⟩ := Option.map_eq_some_iff.1 h
      rw [hac]
      exact (ih (by omega) hearlier hold).concat
    · rename_i hac
      exact (ih (by omega) hearlier h).concat_of_ne hac

/-! ## The setting of a run -/

theorem exists_start_of_sweptAt [SeededSource R] {temperatures : List K}
    (h : sweptAt R d net temperatures = .ok (setting, state)) :
    ∃ first, start (R := R) d net = .ok (setting, first) := by
  simp only [sweptAt, bind_eq_ok] at h
  obtain ⟨⟨setting', first⟩, hfirst, last, -, hreached⟩ := h
  cases hreached
  exact ⟨first, hfirst⟩

theorem measures_of_sweptAt [SeededSource R] {temperatures : List K}
    (h : sweptAt R d net temperatures = .ok (setting, state)) :
    setting.shift = boltzmannShift (d.labelCount net.size) ∧
      ∀ (c : Nat) (strength : K), setting.strengths[c]? = some strength →
        IsClassStrength net setting.classOf.toList c strength := by
  obtain ⟨first, hfirst⟩ := exists_start_of_sweptAt h
  obtain ⟨hnetwork, -, -, -, hconsistent⟩ := (yields_start (R := R) d net).of_eq_ok hfirst
  have hsize := hconsistent.fits.size_classOf
  simp only [start, bind_eq_ok] at hfirst
  obtain ⟨drawn, -, m, -, classOf, -, strengths, hstrengths, hfirst⟩ := hfirst
  cases hfirst
  rw [List.size_toArray] at hsize
  exact ⟨rfl, fun c strength => isClassStrength_classStrengths hsize.le hstrengths⟩

end Potts.Annealing

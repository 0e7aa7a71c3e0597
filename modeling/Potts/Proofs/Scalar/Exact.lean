import Mathlib.Algebra.Order.Field.Basic
import Mathlib.Algebra.Order.Field.Rat
import Mathlib.Order.Std
import Potts.Scalar.Basic

/-!
# Exact arithmetic

The interpretation of the scalars in which numbers are not rounded: an ordered field, with an
exponential function and a logarithm of which nothing is asked. Numbers are compared and filed by
the order of the field, and all of them are finite.
-/

namespace Potts

/-- An ordered field with the constants and functions that a scalar has beside its arithmetic. -/
class ExactScalar (K : Type) extends Field K, LinearOrder K, IsStrictOrderedRing K where
  exp : K → K
  ln : K → K
  epsilon : K
  greatest : K

instance ExactScalar.toScalar {K : Type} [ExactScalar K] : Scalar K where
  toAdd := inferInstance
  toSub := inferInstance
  toMul := inferInstance
  toDiv := inferInstance
  toNeg := inferInstance
  toNatCast := inferInstance
  toIntCast := inferInstance
  toLT := inferInstance
  toLE := inferInstance
  beq a b := decide (a = b)
  exp := ExactScalar.exp
  ln := ExactScalar.ln
  larger := max
  isFinite _ := true
  epsilon := ExactScalar.epsilon
  greatest := ExactScalar.greatest
  order := compare
  decidableLT := inferInstance
  decidableLE := inferInstance
  transCmp_order := inferInstance

namespace Scalar

/-- The operations are those of an ordered field. -/
def IsExact (F : Type) [scalar : Scalar F] : Prop :=
  ∃ exact : ExactScalar F, exact.toScalar = scalar

theorem isExact {K : Type} [inst : ExactScalar K] : IsExact K := ⟨inst, rfl⟩

variable {K : Type} [ExactScalar K]

@[simp]
theorem zero_eq : (zero : K) = 0 := Nat.cast_zero

@[simp]
theorem one_eq : (one : K) = 1 := Nat.cast_one

@[simp]
theorem two_eq : (two : K) = 2 := Nat.cast_ofNat

@[simp]
theorem sum_eq (l : List K) : Scalar.sum l = l.sum := by
  rw [Scalar.sum, zero_eq, List.sum_eq_foldl]

@[simp]
theorem order_eq_eq {a b : K} : order a b = .eq ↔ a = b := compare_eq_iff_eq

theorem isLE_order {a b : K} : (order a b).isLE = true ↔ a ≤ b := by
  rw [Ordering.isLE_iff_ne_gt]
  exact compare_le_iff_le

end Scalar

end Potts

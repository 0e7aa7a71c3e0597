import Mathlib.Data.Prod.Lex
import Mathlib.Algebra.Order.Ring.Int
import Mathlib.Data.Nat.Cast.Order.Basic
import Potts.Scalar.Binary64

/-!
# Comparing binary floating point

The tests `<` and `≤` on binary floating point are partial: a value that is not a number is neither
below nor above anything, itself included. All other values have a rank in a linear order, and the
tests compare the ranks. So on numbers the tests are the two halves of a total order, and a test
that succeeds says that both of its sides are numbers. A quotient by an infinity is one source of
values that are not numbers.
-/

namespace Potts.Binary64

open Float.Model Float.Model.UnpackedFloat

variable {x y z : Float}

/-! ## Ranks -/

/-- The place of a number in the order: infinities lie outside, then the sign decides, then the
exponent, then the mantissa. -/
abbrev Rank := ℤ ×ₗ ℤ ×ₗ ℤ

/-- The rank of an unpacked value, if it is a number. -/
def rankOf : UnpackedFloat → Option Rank
  | .notANumber => none
  | .infinity s => some (toLex (s.apply 2, toLex (0, 0)))
  | .zero _ => some (toLex (0, toLex (0, 0)))
  | .finite s m e _ => some (toLex (s.apply 1, toLex (s.apply e, s.apply m)))

def rank (x : Float) : Option Rank := rankOf x.toModel.unpack

theorem compare_neg (i j : ℤ) : compare (-i) (-j) = (compare i j).swap := by
  have hanti : StrictAnti fun i : ℤ => -i := fun _ _ => neg_lt_neg
  rw [← cmp_eq_compare, ← cmp_eq_compare, cmp_swap]
  exact hanti.cmp_map_eq i j

theorem compare_natCast (m n : ℕ) : compare (m : ℤ) (n : ℤ) = compare m n := by
  rw [← cmp_eq_compare, ← cmp_eq_compare]
  exact Nat.strictMono_cast.cmp_map_eq m n

theorem compare_toLex (s s' e e' m m' : ℤ) :
    compare (toLex (s, toLex (e, m)) : Rank) (toLex (s', toLex (e', m'))) =
      (compare s s').then ((compare e e').then (compare m m')) := by
  rfl

theorem compare_eq (a b : UnpackedFloat) :
    a.compare b = (rankOf a).bind fun i => (rankOf b).map fun j => compare i j := by
  -- two finite values of one sign are compared by exponent and mantissa, all others by their kinds
  rcases a with (_ | _) | _ | _ | ⟨(_ | _), m, e, h⟩ <;>
    rcases b with (_ | _) | _ | _ | ⟨(_ | _), m', e', h'⟩ <;> try rfl
  · change some _ = some (compare (toLex (-1, toLex (-e, -(m : ℤ))) : Rank)
      (toLex (-1, toLex (-e', -(m' : ℤ)))))
    rw [compare_toLex, compare_neg e e', compare_neg m m', compare_natCast, ← Ordering.swap_then]
    rfl
  · change some _ = some (compare (toLex (1, toLex (e, (m : ℤ))) : Rank)
      (toLex (1, toLex (e', (m' : ℤ)))))
    rw [compare_toLex, compare_natCast]
    rfl

theorem lt_iff_compare : x < y ↔ x.toModel.unpack.compare y.toModel.unpack = some .lt := by
  simp [LT.lt, Float.lt, Float.Model.lt, UnpackedFloat.lt]

theorem le_iff_compare :
    x ≤ y ↔ ∃ o ∈ x.toModel.unpack.compare y.toModel.unpack, o.isLE = true := by
  simp only [LE.le, Float.le, Float.Model.le, UnpackedFloat.le]
  simp [Option.any_eq_true]

theorem lt_iff : x < y ↔ ∃ i ∈ rank x, ∃ j ∈ rank y, i < j := by
  rw [lt_iff_compare, compare_eq, rank, rank]
  cases rankOf x.toModel.unpack <;> cases rankOf y.toModel.unpack <;>
    simp [compare_lt_iff_lt]

theorem le_iff : x ≤ y ↔ ∃ i ∈ rank x, ∃ j ∈ rank y, i ≤ j := by
  rw [le_iff_compare, compare_eq, rank, rank]
  cases rankOf x.toModel.unpack <;> cases rankOf y.toModel.unpack <;>
    simp [Ordering.isLE_iff_ne_gt, compare_gt_iff_gt]

theorem isNaN_eq_false_iff : x.isNaN = false ↔ ∃ i, i ∈ rank x := by
  rw [rank]
  change x.toModel.unpack.isNaN = false ↔ _
  cases x.toModel.unpack with
  | notANumber =>
    constructor
    · intro h
      cases h
    · rintro ⟨i, hi⟩
      cases hi
  | infinity s => exact ⟨fun _ => ⟨_, rfl⟩, fun _ => rfl⟩
  | zero s => exact ⟨fun _ => ⟨_, rfl⟩, fun _ => rfl⟩
  | finite s m e h => exact ⟨fun _ => ⟨_, rfl⟩, fun _ => rfl⟩

/-! ## Laws of the tests -/

theorem isNaN_of_le (h : x ≤ y) : x.isNaN = false ∧ y.isNaN = false := by
  obtain ⟨i, hi, j, hj, -⟩ := le_iff.1 h
  exact ⟨isNaN_eq_false_iff.2 ⟨i, hi⟩, isNaN_eq_false_iff.2 ⟨j, hj⟩⟩

theorem le_self_iff : x ≤ x ↔ x.isNaN = false := by
  refine ⟨fun h => (isNaN_of_le h).1, fun h => ?_⟩
  obtain ⟨i, hi⟩ := isNaN_eq_false_iff.1 h
  exact le_iff.2 ⟨i, hi, i, hi, le_refl i⟩

theorem le_of_lt (h : x < y) : x ≤ y := by
  obtain ⟨i, hi, j, hj, hij⟩ := lt_iff.1 h
  exact le_iff.2 ⟨i, hi, j, hj, hij.le⟩

theorem lt_of_le_of_lt (hxy : x ≤ y) (hyz : y < z) : x < z := by
  obtain ⟨i, hi, j, hj, hij⟩ := le_iff.1 hxy
  obtain ⟨j', hj', k, hk, hjk⟩ := lt_iff.1 hyz
  cases Option.mem_unique hj hj'
  exact lt_iff.2 ⟨i, hi, k, hk, hij.trans_lt hjk⟩

theorem lt_of_not_le (hx : x.isNaN = false) (hy : y.isNaN = false) (h : ¬y ≤ x) : x < y := by
  obtain ⟨i, hi⟩ := isNaN_eq_false_iff.1 hx
  obtain ⟨j, hj⟩ := isNaN_eq_false_iff.1 hy
  refine lt_iff.2 ⟨i, hi, j, hj, ?_⟩
  by_contra hle
  exact h (le_iff.2 ⟨j, hj, i, hi, not_lt.1 hle⟩)

/-! ## Quotients by an infinity -/

theorem div_infinity (a : UnpackedFloat) (s : Sign) :
    UnpackedFloat.div Format.binary64 a (.infinity s) = .notANumber ∨
      ∃ t, UnpackedFloat.div Format.binary64 a (.infinity s) = .zero t := by
  cases a with
  | infinity t => exact Or.inl rfl
  | notANumber => exact Or.inl rfl
  | zero t => exact Or.inr ⟨t / s, rfl⟩
  | finite t m e h => exact Or.inr ⟨t / s, rfl⟩

theorem div_of_isInf (hy : y.isInf = true) : (x / y).isNaN = true ∨ (x / y == 0) = true := by
  have hdiv : x / y =
      .ofModel (.pack (UnpackedFloat.div Format.binary64 x.toModel.unpack y.toModel.unpack)) := rfl
  have hinf : y.toModel.unpack.isInf = true := hy
  rw [hdiv]
  cases hunpack : y.toModel.unpack with
  | infinity s =>
    rcases div_infinity x.toModel.unpack s with h | ⟨t, h⟩
    · rw [h]
      exact Or.inl (by decide)
    · rw [h]
      refine Or.inr ?_
      cases t <;> decide
  | notANumber => rw [hunpack] at hinf; cases hinf
  | zero s => rw [hunpack] at hinf; cases hinf
  | finite s m e h => rw [hunpack] at hinf; cases hinf

end Potts.Binary64

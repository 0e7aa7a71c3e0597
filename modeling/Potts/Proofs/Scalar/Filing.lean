import Mathlib.Order.Compare
import Potts.Proofs.Scalar.Binary64

/-!
# Filing binary floating point

Values are filed by the position that their bits give them. The position of a number lies as far
from that of zero as its exponent and mantissa fields together tell, on the side of its sign, and
the fields ascend with the number. So filing agrees with the tests on numbers, which take the two
zeros for one. Beyond all numbers it has one last place, for what is not a number.
-/

namespace Potts.Binary64

open Float.Model Float.Model.UnpackedFloat Scalar

variable {x y : Float} {a b : UnpackedFloat} {s t : Sign} {n n' m m' : ℕ} {e e' : ℤ}

/-! ## Fields -/

/-- The exponents and mantissas that 64 bits have room for: only the least exponent has mantissas
without a leading bit. -/
structure Fits (e : ℤ) (m : ℕ) : Prop where
  least_le : -1074 ≤ e
  le_greatest : e ≤ 971
  mantissa_lt : m < 2 ^ 53
  leading : -1074 < e → 2 ^ 52 ≤ m

/-- The fields of an exponent and a mantissa side by side. The leading bit of the mantissa is not
kept: it counts the exponent up by one. -/
def fields (e : ℤ) (m : ℕ) : ℤ := (e + 1074) * 2 ^ 52 + m

/-- The value that a sign and the bits after it stand for. -/
def Reads (s : Sign) (n : ℕ) : UnpackedFloat → Prop
  | .notANumber => 2047 * 2 ^ 52 < n
  | .infinity t => t = s ∧ n = 2047 * 2 ^ 52
  | .zero t => t = s ∧ n = 0
  | .finite t m e _ => t = s ∧ Fits e m ∧ n = fields e m

theorem fields_pos (h : Fits e m) (hm : 0 < m) : 0 < fields e m := by
  have := h.least_le
  rw [fields]
  omega

theorem fields_lt (h : Fits e m) : fields e m < 2047 * 2 ^ 52 := by
  have := h.le_greatest
  have := h.mantissa_lt
  rw [fields]
  omega

theorem then_compare_eq (h : Fits e m) (h' : Fits e' m') :
    (compare e e').then (compare m m') = compare (fields e m) (fields e' m') := by
  obtain ⟨hleast, -, hlt, hlead⟩ := h
  obtain ⟨hleast', -, hlt', hlead'⟩ := h'
  rcases lt_trichotomy e e' with he | rfl | he
  · have hfields : fields e m < fields e' m' := by
      rw [fields, fields]
      omega
    rw [compare_lt_iff_lt.2 he, compare_lt_iff_lt.2 hfields]
    rfl
  · have hsame : compare e e = .eq := compare_eq_iff_eq.2 rfl
    have hmono : StrictMono fun m : ℤ => (e + 1074) * 2 ^ 52 + m :=
      fun _ _ h => Int.add_lt_add_left h _
    rw [hsame, ← compare_natCast, ← cmp_eq_compare, ← cmp_eq_compare]
    exact (hmono.cmp_map_eq (m : ℤ) m').symm
  · have hfields : fields e' m' < fields e m := by
      rw [fields, fields]
      omega
    rw [compare_gt_iff_gt.2 he, compare_gt_iff_gt.2 hfields]
    rfl

/-! ## Reading bits -/

theorem toNat_unpackMantissa (v : BitVec 64) :
    (@unpackMantissa Format.binary64 v).toNat = v.toNat % 2 ^ 52 := by
  simp [unpackMantissa]

theorem toNat_unpackExponent (v : BitVec 64) :
    (@unpackExponent Format.binary64 v).toNat = v.toNat / 2 ^ 52 % 2 ^ 11 := by
  simp [unpackExponent, Nat.shiftRight_eq_div_pow]

theorem toNat_unpackSign (v : BitVec 64) :
    (@unpackSign Format.binary64 v).toNat = v.toNat / 2 ^ 63 := by
  have hv := v.isLt
  change v.toNat >>> 63 % 2 = _
  rw [Nat.shiftRight_eq_div_pow]
  omega

theorem toNat_leading_append (v : BitVec 52) : (1#1 ++ v).toNat = 2 ^ 52 + v.toNat := by
  rw [BitVec.toNat_append, ← Nat.shiftLeft_add_eq_or_of_lt v.isLt]
  rfl

theorem ofBitVec_unpackSign (v : BitVec 64) :
    Sign.ofBitVec (@unpackSign Format.binary64 v) =
      if v.toNat < 2 ^ 63 then .positive else .negative := by
  have hsign := toNat_unpackSign v
  refine if_congr ⟨fun h => ?_, fun h => BitVec.eq_of_toNat_eq ?_⟩ rfl rfl
  · have hzero : (@unpackSign Format.binary64 v).toNat = 0 := congrArg BitVec.toNat h
    omega
  · rw [hsign]
    exact Nat.div_eq_of_lt h

theorem reads_unpack (v : BitVec 64) :
    Reads (Sign.ofBitVec (@unpackSign Format.binary64 v)) (v.toNat % 2 ^ 63)
      (UnpackedFloat.unpack Format.binary64 v) := by
  have hmantissa := toNat_unpackMantissa v
  have hexponent := toNat_unpackExponent v
  have hbias : (Format.binary64.exponentBias : ℤ) = 1023 := rfl
  -- what the tests on the fields say of the bits
  have hzero : @unpackMantissa Format.binary64 v = 0#52 ↔ v.toNat % 2 ^ 52 = 0 := by
    rw [← BitVec.toNat_inj, hmantissa]
    rfl
  have hleast : @unpackExponent Format.binary64 v = 0#11 ↔ v.toNat / 2 ^ 52 % 2 ^ 11 = 0 := by
    rw [← BitVec.toNat_inj, hexponent]
    rfl
  have hlast : @unpackExponent Format.binary64 v = -1#11 ↔ v.toNat / 2 ^ 52 % 2 ^ 11 = 2047 := by
    rw [← BitVec.toNat_inj, hexponent]
    rfl
  delta UnpackedFloat.unpack
  dsimp only
  by_cases hexp : @unpackExponent Format.binary64 v = -1#11
  · have hfield := hlast.1 hexp
    rw [if_pos hexp]
    by_cases hman : @unpackMantissa Format.binary64 v = 0#52
    · have hrest := hzero.1 hman
      rw [if_pos hman]
      exact ⟨rfl, by omega⟩
    · have hrest := mt hzero.2 hman
      rw [if_neg hman]
      change 2047 * 2 ^ 52 < v.toNat % 2 ^ 63
      omega
  · have hbelow := mt hlast.2 hexp
    rw [if_neg hexp]
    by_cases hlow : @unpackExponent Format.binary64 v = 0#11
    · have hfield := hleast.1 hlow
      rw [if_pos hlow]
      by_cases hman : @unpackMantissa Format.binary64 v = 0#52
      · have hrest := hzero.1 hman
        rw [dif_pos hman]
        exact ⟨rfl, by omega⟩
      · rw [dif_neg hman]
        exact ⟨rfl, ⟨by omega, by omega, by omega, by omega⟩, by rw [fields]; omega⟩
    · have habove := mt hleast.2 hlow
      have hleading := toNat_leading_append (@unpackMantissa Format.binary64 v)
      rw [if_neg hlow]
      exact ⟨rfl, ⟨by omega, by omega, by omega, by omega⟩, by rw [fields]; omega⟩

theorem toNat_magnitude (x : Float) : (magnitude x).toNat = x.toBits.toNat % 2 ^ 63 := by
  rw [magnitude, UInt64.toNat_and]
  exact Nat.and_two_pow_sub_one_eq_mod x.toBits.toNat 63

theorem reads (x : Float) :
    Reads (if x.toBits < 0x8000000000000000 then .positive else .negative) (magnitude x).toNat
      x.toModel.unpack := by
  have h := reads_unpack x.toBits.toBitVec
  rw [ofBitVec_unpackSign] at h
  rw [toNat_magnitude]
  exact h

/-! ## Offsets -/

/-- How far a value is filed above zero. -/
def offset : UnpackedFloat → ℤ
  | .notANumber => 2 ^ 63 - 1
  | .infinity s => s.apply (2047 * 2 ^ 52)
  | .zero _ => 0
  | .finite s m e _ => s.apply (fields e m)

theorem some_lt_eq {i j : ℤ} (h : i < j) : some .lt = some (compare i j) :=
  congrArg some (compare_lt_iff_lt.2 h).symm

theorem some_gt_eq {i j : ℤ} (h : j < i) : some .gt = some (compare i j) :=
  congrArg some (compare_gt_iff_gt.2 h).symm

theorem compare_eq_compare_offset (ha : Reads s n a) (hb : Reads t n' b) (hna : a.isNaN = false)
    (hnb : b.isNaN = false) : a.compare b = some (compare (offset a) (offset b)) := by
  cases a with
  | notANumber => cases hna
  | infinity s =>
    cases b with
    | notANumber => cases hnb
    | infinity t => cases s <;> cases t <;> rfl
    | zero t => cases s <;> rfl
    | finite t m e hm =>
      have hpos := fields_pos hb.2.1 hm
      have hlt := fields_lt hb.2.1
      cases s <;> cases t
      · exact some_lt_eq (show -(2047 * 2 ^ 52) < -fields e m by omega)
      · exact some_lt_eq (show -(2047 * 2 ^ 52) < fields e m by omega)
      · exact some_gt_eq (show -fields e m < 2047 * 2 ^ 52 by omega)
      · exact some_gt_eq (show fields e m < 2047 * 2 ^ 52 by omega)
  | zero s =>
    cases b with
    | notANumber => cases hnb
    | infinity t => cases t <;> rfl
    | zero t => rfl
    | finite t m e hm =>
      have hpos := fields_pos hb.2.1 hm
      cases t
      · exact some_gt_eq (show -fields e m < 0 by omega)
      · exact some_lt_eq (show 0 < fields e m by omega)
  | finite s m e hm =>
    have hpos := fields_pos ha.2.1 hm
    have hlt := fields_lt ha.2.1
    cases b with
    | notANumber => cases hnb
    | infinity t =>
      cases s <;> cases t
      · exact some_gt_eq (show -(2047 * 2 ^ 52) < -fields e m by omega)
      · exact some_lt_eq (show -fields e m < 2047 * 2 ^ 52 by omega)
      · exact some_gt_eq (show -(2047 * 2 ^ 52) < fields e m by omega)
      · exact some_lt_eq (show fields e m < 2047 * 2 ^ 52 by omega)
    | zero t =>
      cases s
      · exact some_lt_eq (show -fields e m < 0 by omega)
      · exact some_gt_eq (show 0 < fields e m by omega)
    | finite t m' e' hm' =>
      have hpos' := fields_pos hb.2.1 hm'
      cases s <;> cases t
      · change some _ = some (compare (-fields e m) (-fields e' m'))
        rw [compare_neg, ← then_compare_eq ha.2.1 hb.2.1]
      · exact some_lt_eq (show -fields e m < fields e' m' by omega)
      · exact some_gt_eq (show -fields e' m' < fields e m by omega)
      · exact congrArg some (then_compare_eq ha.2.1 hb.2.1)

theorem Reads.offset_eq (h : Reads s n a) (ha : a.isNaN = false) : offset a = s.apply n := by
  cases a with
  | notANumber => cases ha
  | infinity t =>
    obtain ⟨rfl, rfl⟩ := h
    rfl
  | zero t =>
    obtain ⟨rfl, rfl⟩ := h
    cases t <;> rfl
  | finite t m e hm =>
    obtain ⟨rfl, -, hn⟩ := h
    change t.apply (fields e m) = _
    rw [hn]

theorem offset_of_isNaN (ha : a.isNaN = true) : offset a = 2 ^ 63 - 1 := by
  cases a with
  | notANumber => rfl
  | infinity t => cases ha
  | zero t => cases ha
  | finite t m e hm => cases ha

theorem Reads.offset_lt (h : Reads s n a) (ha : a.isNaN = false) : offset a < 2 ^ 63 - 1 := by
  cases a with
  | notANumber => cases ha
  | infinity t => cases t <;> decide
  | zero t => exact (by decide : (0 : ℤ) < 2 ^ 63 - 1)
  | finite t m e hm =>
    have hpos := fields_pos h.2.1 hm
    have hlt := fields_lt h.2.1
    cases t
    · change -fields e m < 2 ^ 63 - 1
      omega
    · change fields e m < 2 ^ 63 - 1
      omega

theorem Reads.offset_le (h : Reads s n a) : offset a ≤ 2 ^ 63 - 1 := by
  cases ha : a.isNaN with
  | true => exact (offset_of_isNaN ha).le
  | false => exact (h.offset_lt ha).le

theorem isNaN_of_offset_lt (h : offset a < 2 ^ 63 - 1) : a.isNaN = false := by
  by_contra ha
  rw [offset_of_isNaN (Bool.eq_true_of_not_eq_false ha)] at h
  exact lt_irrefl _ h

/-! ## Positions -/

theorem toNat_position (x : Float) :
    ((position x).toNat : ℤ) = 2 ^ 63 + offset x.toModel.unpack := by
  have hlt : (magnitude x).toNat < 2 ^ 63 := by
    rw [toNat_magnitude]
    exact Nat.mod_lt _ (by decide)
  have hzero : (0x8000000000000000 : UInt64).toNat = 2 ^ 63 := rfl
  rw [position]
  cases hx : x.isNaN with
  | true =>
    have hunpack : x.toModel.unpack.isNaN = true := hx
    rw [if_pos rfl, offset_of_isNaN hunpack]
    rfl
  | false =>
    rw [(reads x).offset_eq hx, if_neg Bool.false_ne_true]
    split
    · change _ = 2 ^ 63 + ((magnitude x).toNat : ℤ)
      rw [UInt64.toNat_add]
      omega
    · change _ = 2 ^ 63 + -((magnitude x).toNat : ℤ)
      rw [UInt64.toNat_sub_of_le _ _ (UInt64.le_iff_toNat_le.2 (by omega))]
      omega

theorem order_eq_compare (x y : Float) :
    order x y = compare (offset x.toModel.unpack) (offset y.toModel.unpack) := by
  have hx := toNat_position x
  have hy := toNat_position y
  have hlt : position x < position y ↔ offset x.toModel.unpack < offset y.toModel.unpack := by
    rw [UInt64.lt_iff_toNat_lt]
    omega
  have heq : position x = position y ↔ offset x.toModel.unpack = offset y.toModel.unpack := by
    rw [← UInt64.toNat_inj]
    omega
  change compareOfLessAndEq (position x) (position y) =
    compareOfLessAndEq (offset x.toModel.unpack) (offset y.toModel.unpack)
  rw [compareOfLessAndEq, compareOfLessAndEq]
  simp only [hlt, heq]

theorem compare_eq_order (hx : x.isNaN = false) (hy : y.isNaN = false) :
    x.toModel.unpack.compare y.toModel.unpack = some (order x y) := by
  rw [order_eq_compare]
  exact compare_eq_compare_offset (reads x) (reads y) hx hy

/-! ## Filing and the tests -/

theorem beq_iff_compare :
    (x == y) = true ↔ x.toModel.unpack.compare y.toModel.unpack = some .eq := by
  change (x.toModel.unpack.compare y.toModel.unpack == some .eq) = true ↔ _
  exact beq_iff_eq

/-- A value is filed before another one if it is below it, and what is not a number comes last. -/
theorem order_eq_lt_iff : order x y = .lt ↔ x < y ∨ x.isNaN = false ∧ y.isNaN = true := by
  constructor
  · intro h
    have hlt := h
    rw [order_eq_compare, compare_lt_iff_lt] at hlt
    have hx : x.isNaN = false := isNaN_of_offset_lt (hlt.trans_le (reads y).offset_le)
    cases hy : y.isNaN with
    | true => exact .inr ⟨hx, rfl⟩
    | false => exact .inl (lt_iff_compare.2 (by rw [compare_eq_order hx hy, h]))
  · rintro (h | ⟨hx, hy⟩)
    · obtain ⟨hx, hy⟩ := isNaN_of_le (le_of_lt h)
      rw [lt_iff_compare, compare_eq_order hx hy] at h
      exact Option.some_inj.1 h
    · have hlast : offset y.toModel.unpack = 2 ^ 63 - 1 := offset_of_isNaN hy
      rw [order_eq_compare, compare_lt_iff_lt, hlast]
      exact (reads x).offset_lt hx

theorem order_eq_eq_iff : order x y = .eq ↔ (x == y) = true ∨ x.isNaN = true ∧ y.isNaN = true := by
  constructor
  · intro h
    have heq := h
    rw [order_eq_compare, compare_eq_iff_eq] at heq
    cases hy : y.isNaN with
    | true =>
      have hlast : offset y.toModel.unpack = 2 ^ 63 - 1 := offset_of_isNaN hy
      cases hx : x.isNaN with
      | true => exact .inr ⟨rfl, rfl⟩
      | false => exact absurd (heq.trans hlast) ((reads x).offset_lt hx).ne
    | false =>
      have hx : x.isNaN = false := isNaN_of_offset_lt (heq.trans_lt ((reads y).offset_lt hy))
      exact .inl (beq_iff_compare.2 (by rw [compare_eq_order hx hy, h]))
  · rintro (h | ⟨hx, hy⟩)
    · rw [beq_iff_compare] at h
      obtain ⟨hx, hy⟩ := isNaN_of_le (le_iff_compare.2 ⟨.eq, h, rfl⟩)
      rw [compare_eq_order hx hy] at h
      exact Option.some_inj.1 h
    · have hlast : offset x.toModel.unpack = 2 ^ 63 - 1 := offset_of_isNaN hx
      have hlast' : offset y.toModel.unpack = 2 ^ 63 - 1 := offset_of_isNaN hy
      rw [order_eq_compare, compare_eq_iff_eq, hlast, hlast']

/-- The two zeros are filed under one key. -/
example : order (Float.ofBits 0) (Float.ofBits 0x8000000000000000) = .eq := by decide

end Potts.Binary64

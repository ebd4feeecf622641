import Mathlib.Algebra.Order.Field.Rat
import Mathlib.Data.Nat.Cast.Order.Field
import Mathlib.Tactic.Linarith

/-!
Contract: multiplication by a factor in fixed point.

Owns: the product rounded down, its monotony, and how far it is from the exact product when the
factor is the exact one rounded down, and when it falls short of it.

Does not own: where the factor comes from, or the range of the product.
-/

set_option autoImplicit false

namespace MqEcn.Library.FixedPoint

/-- The product of a length with a factor that has `shift` fractional bits, rounded down. -/
def scale (shift factor len : Nat) : Nat := len * factor / 2 ^ shift

theorem scale_mono (shift factor : Nat) : Monotone (scale shift factor) :=
  fun _ _ ordered => Nat.div_le_div_right (Nat.mul_le_mul_right factor ordered)

section

variable {shift factor len : Nat} {value : ℚ}

theorem two_pow_pos_rat (shift : Nat) : (0 : ℚ) < 2 ^ shift := by
  exact_mod_cast Nat.two_pow_pos shift

private theorem scale_cast_le (shift factor len : Nat) :
    (scale shift factor len : ℚ) ≤ len * factor / 2 ^ shift := by
  have below := @Nat.cast_div_le ℚ _ _ _ (len * factor) (2 ^ shift)
  exact_mod_cast below

private theorem lt_scale_cast_add_one (shift factor len : Nat) :
    (len * factor / 2 ^ shift : ℚ) < scale shift factor len + 1 := by
  have above := Nat.lt_mul_div_succ (len * factor) (Nat.two_pow_pos shift)
  rw [div_lt_iff₀ (two_pow_pos_rat shift), mul_comm (_ + 1 : ℚ)]
  exact_mod_cast above

/-- A factor rounded down gives no more than the exact product. -/
theorem scale_le (below : (factor : ℚ) ≤ value * 2 ^ shift) :
    (scale shift factor len : ℚ) ≤ len * value := by
  calc (scale shift factor len : ℚ) ≤ len * factor / 2 ^ shift := scale_cast_le shift factor len
    _ ≤ len * (value * 2 ^ shift) / 2 ^ shift :=
      div_le_div_of_nonneg_right (mul_le_mul_of_nonneg_left below (Nat.cast_nonneg len))
        (two_pow_pos_rat shift).le
    _ = len * value := by
      rw [← mul_assoc, mul_div_assoc, div_self (two_pow_pos_rat shift).ne', mul_one]

/-- The rounding of the product, and of the factor over the length. -/
theorem lt_scale (above : value * 2 ^ shift < factor + 1) :
    len * value < scale shift factor len + 1 + len / 2 ^ shift := by
  have whole := lt_scale_cast_add_one shift factor len
  have exact : (len * value : ℚ) ≤ len * (factor + 1) / 2 ^ shift := by
    rw [le_div_iff₀ (two_pow_pos_rat shift), mul_assoc]
    exact mul_le_mul_of_nonneg_left above.le (Nat.cast_nonneg len)
  rw [mul_add, mul_one, add_div] at exact
  linarith

/-- What a factor lacks is missing from the product, length by length. -/
theorem scale_add_le {excess : Nat} (short : (factor + excess : ℚ) ≤ value * 2 ^ shift) :
    scale shift factor len + len * excess / 2 ^ shift ≤ len * value := by
  have below := scale_cast_le shift factor len
  have exact : (len * (factor + excess) / 2 ^ shift : ℚ) ≤ len * value := by
    rw [div_le_iff₀ (two_pow_pos_rat shift), mul_assoc]
    exact mul_le_mul_of_nonneg_left short (Nat.cast_nonneg len)
  rw [mul_add, add_div] at exact
  linarith

end

end MqEcn.Library.FixedPoint

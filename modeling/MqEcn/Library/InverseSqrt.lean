import Mathlib.Algebra.Order.Ring.Nat
import Mathlib.Algebra.Order.Ring.Int
import Mathlib.Tactic.Linarith
import Mathlib.Tactic.Ring

/-!
Contract: Newton's iteration for the reciprocal of a square root, in fixed point.

Owns: one step of it, rounded down twice; that a step never ends above the root, wherever it
starts; that it does not end at zero, where it starts not too far above the root; and what a
radicand that grows by one does to the start of the next step.

`4 * quarter` stands for one, so that a root is scaled by the square root of `4 * quarter`.

Does not own: widths of integers, or where the radicands come from.
-/

set_option autoImplicit false

namespace MqEcn.Library.InverseSqrt

/-- The step `root * (3 - radicand * root ^ 2) / 2`. -/
def newton (quarter radicand root : Nat) : Nat :=
  (3 * (4 * quarter) - radicand * root ^ 2) / 4 * root / (2 * quarter)

/-- The cubic of the step has its maximum at the root. -/
theorem cubic_le {one square rest : Nat} (parts : rest + square = 3 * one) :
    square * rest ^ 2 ≤ 4 * one ^ 3 := by
  have gap : (4 * one ^ 3 - square * rest ^ 2 : Int) = (one - square) ^ 2 * (one + rest) := by
    have difference : (rest : Int) = 3 * one - square := by omega
    rw [difference]
    ring
  have nonneg : (0 : Int) ≤ (one - square) ^ 2 * (one + rest) :=
    mul_nonneg (sq_nonneg _) (by omega)
  zify
  linarith

/-- What the two divisions of a step leave of it. -/
theorem newton_mul_le (quarter radicand root : Nat) :
    newton quarter radicand root * (8 * quarter) ≤
      (3 * (4 * quarter) - radicand * root ^ 2) * root := by
  generalize three : 3 * (4 * quarter) - radicand * root ^ 2 = rest
  have last : newton quarter radicand root * (2 * quarter) ≤ rest / 4 * root := by
    unfold newton
    rw [three]
    exact Nat.div_mul_le_self _ _
  calc newton quarter radicand root * (8 * quarter)
      = newton quarter radicand root * (2 * quarter) * 4 := by ring
    _ ≤ rest / 4 * root * 4 := Nat.mul_le_mul_right 4 last
    _ = rest / 4 * 4 * root := by ring
    _ ≤ rest * root := Nat.mul_le_mul_right root (Nat.div_mul_le_self rest 4)

section

variable {quarter radicand root : Nat}

/-- A step ends at the root or below. -/
theorem newton_below (positive : 0 < quarter) :
    radicand * newton quarter radicand root ^ 2 ≤ 4 * quarter := by
  have rounded := newton_mul_le quarter radicand root
  generalize newton quarter radicand root = next at rounded ⊢
  obtain ⟨rest, difference⟩ : ∃ rest, 3 * (4 * quarter) - radicand * root ^ 2 = rest := ⟨_, rfl⟩
  rw [difference] at rounded
  by_cases inside : radicand * root ^ 2 ≤ 3 * (4 * quarter)
  · have cubic : radicand * root ^ 2 * rest ^ 2 ≤ 4 * (4 * quarter) ^ 3 := cubic_le (by omega)
    have scaled : radicand * next ^ 2 * (8 * quarter) ^ 2 ≤ 4 * quarter * (8 * quarter) ^ 2 := by
      calc radicand * next ^ 2 * (8 * quarter) ^ 2
          = radicand * (next * (8 * quarter)) ^ 2 := by ring
        _ ≤ radicand * (rest * root) ^ 2 :=
          Nat.mul_le_mul_left radicand (Nat.pow_le_pow_left rounded 2)
        _ = radicand * root ^ 2 * rest ^ 2 := by ring
        _ ≤ 4 * (4 * quarter) ^ 3 := cubic
        _ = 4 * quarter * (8 * quarter) ^ 2 := by ring
    exact Nat.le_of_mul_le_mul_right scaled (Nat.pow_pos (by omega))
  · -- The difference is cut to zero, and so is the step.
    have cut : rest = 0 := by omega
    rw [cut, zero_mul, Nat.le_zero] at rounded
    have zero : next = 0 := (Nat.mul_eq_zero.mp rounded).resolve_right (by omega)
    rw [zero, zero_pow two_ne_zero, mul_zero]
    exact Nat.zero_le _

/-- A step from at most twice the square does not end at zero, while the root itself is not
below one. -/
theorem newton_pos (positive : 0 < quarter) (nonzero : 0 < root) (fits : radicand ≤ 4 * quarter)
    (near : radicand * root ^ 2 ≤ 2 * (4 * quarter)) : 0 < newton quarter radicand root := by
  unfold newton
  apply Nat.div_pos _ (by omega)
  generalize square : radicand * root ^ 2 = y at near
  by_cases single : root = 1
  · subst single
    rw [one_pow, mul_one] at square
    omega
  · have least : quarter ≤ (3 * (4 * quarter) - y) / 4 := by omega
    calc 2 * quarter = quarter * 2 := Nat.mul_comm 2 quarter
      _ ≤ (3 * (4 * quarter) - y) / 4 * root := Nat.mul_le_mul least (by omega)

/-- A radicand that grows by one at most doubles the square. -/
theorem succ_mul_le (nonzero : 0 < radicand) (below : radicand * root ^ 2 ≤ 4 * quarter) :
    (radicand + 1) * root ^ 2 ≤ 2 * (4 * quarter) := by
  have square : root ^ 2 ≤ radicand * root ^ 2 := Nat.le_mul_of_pos_left _ nonzero
  rw [Nat.succ_mul]
  omega

/-- The root of a radicand from two on is less than one. -/
theorem lt_of_below {side : Nat} (square : side ^ 2 = 4 * quarter) (positive : 0 < quarter)
    (two : 2 ≤ radicand) (below : radicand * root ^ 2 ≤ 4 * quarter) : root < side := by
  have twice : 2 * root ^ 2 ≤ radicand * root ^ 2 := Nat.mul_le_mul_right _ two
  apply lt_of_pow_lt_pow_left₀ 2 (Nat.zero_le side)
  omega

end

end MqEcn.Library.InverseSqrt

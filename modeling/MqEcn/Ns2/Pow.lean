import Mathlib.Algebra.BigOperators.Group.List.Basic
import Mathlib.Algebra.Order.Field.Rat
import Mathlib.Data.Rat.Lemmas
import Mathlib.Order.Interval.Set.Defs

/-!
Contract: `pow` of `math.h`, which the NS2 disciplines decay their estimates with.

Owns: the laws of `pow` on whole exponents, on whole multiples of a part of one and on factors
up to one, what they make of a product of powers, and a function that obeys them.

Does not own: any estimate.
-/

set_option autoImplicit false

namespace MqEcn.Ns2

open Set (Icc)

/-- `pow` for whole exponents. -/
def RaisesWhole (pow : ℚ → ℚ → ℚ) : Prop := ∀ (base : ℚ) (n : Nat), pow base n = base ^ n

/-- `pow` for whole multiples of the `m`-th part of one. -/
def RaisesParts (pow : ℚ → ℚ → ℚ) (base : ℚ) (m : Nat) : Prop :=
  ∀ n : Nat, pow base (n / m) = pow base (1 / m) ^ n

/-- `pow` on factors up to one: no negative power leaves the unit interval. -/
def Weakening (pow : ℚ → ℚ → ℚ) : Prop :=
  ∀ base ∈ Icc (0 : ℚ) 1, ∀ exponent, 0 ≤ exponent → pow base exponent ∈ Icc (0 : ℚ) 1

/-! ### Parts of one -/

/-- A whole multiple of the `m`-th part of one. -/
def Parted (m : Nat) (exponent : ℚ) : Prop := ∃ n : Nat, exponent = n / m

/-- The parts of one in which all exponents are whole. -/
def parts (exponents : List ℚ) : Nat := exponents.foldr (fun exponent m => exponent.den.lcm m) 1

theorem parts_pos (exponents : List ℚ) : 0 < parts exponents := by
  induction exponents with
  | nil => exact Nat.one_pos
  | cons exponent rest inductionHypothesis => exact Nat.lcm_pos exponent.den_pos inductionHypothesis

theorem den_dvd_parts {exponents : List ℚ} {exponent : ℚ} (member : exponent ∈ exponents) :
    exponent.den ∣ parts exponents := by
  induction exponents with
  | nil => cases member
  | cons head rest inductionHypothesis =>
      rcases List.mem_cons.mp member with rfl | inside
      · exact Nat.dvd_lcm_left _ _
      · exact (inductionHypothesis inside).trans (Nat.dvd_lcm_right _ _)

theorem parted_of_den_dvd {m : Nat} {exponent : ℚ} (nonneg : 0 ≤ exponent) (positive : 0 < m)
    (divides : exponent.den ∣ m) : Parted m exponent := by
  rcases divides with ⟨k, rfl⟩
  refine ⟨exponent.num.toNat * k, ?_⟩
  have whole : (exponent.num.toNat : ℚ) = exponent.num := by
    exact_mod_cast Int.toNat_of_nonneg (Rat.num_nonneg.mpr nonneg)
  have apart : (k : ℚ) ≠ 0 := by
    exact_mod_cast Nat.ne_of_gt (Nat.pos_of_mul_pos_left positive)
  push_cast
  rw [whole, mul_div_mul_right _ _ apart, Rat.num_div_den]

private theorem Parted.add {m : Nat} {first second : ℚ} (one : Parted m first)
    (two : Parted m second) :
    Parted m (first + second) := by
  rcases one with ⟨n, rfl⟩
  rcases two with ⟨k, rfl⟩
  exact ⟨n + k, by rw [Nat.cast_add, add_div]⟩

/-! ### Products of powers -/

section

variable {pow : ℚ → ℚ → ℚ} {base : ℚ} {m : Nat} {exponents : List ℚ}

/-- Whole exponents are in parts of one. -/
theorem RaisesWhole.raisesParts (raises : RaisesWhole pow) (base : ℚ) :
    RaisesParts pow base 1 := by
  intro n
  have one := raises base 1
  rw [Nat.cast_one, pow_one] at one
  rw [Nat.cast_one, div_one, div_one, one]
  exact raises base n

private theorem RaisesParts.add (raises : RaisesParts pow base m) {first second : ℚ}
    (one : Parted m first) (two : Parted m second) :
    pow base (first + second) = pow base first * pow base second := by
  rcases one with ⟨n, rfl⟩
  rcases two with ⟨k, rfl⟩
  rw [← add_div, ← Nat.cast_add, raises, raises, raises, pow_add]

/-- A product of powers is the power of the sum. -/
theorem RaisesParts.prod (raises : RaisesParts pow base m)
    (parted : ∀ exponent ∈ exponents, Parted m exponent) :
    Parted m exponents.sum ∧ (exponents.map (pow base)).prod = pow base exponents.sum := by
  induction exponents with
  | nil =>
      have zero := raises 0
      rw [Nat.cast_zero, zero_div, pow_zero] at zero
      exact ⟨⟨0, by rw [Nat.cast_zero, zero_div, List.sum_nil]⟩, zero.symm⟩
  | cons exponent rest inductionHypothesis =>
      have own := parted exponent List.mem_cons_self
      obtain ⟨others, product⟩ :=
        inductionHypothesis fun other inside => parted other (List.mem_cons_of_mem _ inside)
      rw [List.map_cons, List.prod_cons, List.sum_cons, product]
      exact ⟨own.add others, (raises.add own others).symm⟩

/-- A factor below one tells the exponents apart. -/
theorem RaisesParts.injective (raises : RaisesParts pow base m) (positive : 0 < pow base (1 / m))
    (below : pow base (1 / m) < 1) {first second : ℚ} (one : Parted m first)
    (two : Parted m second) (same : pow base first = pow base second) : first = second := by
  rcases one with ⟨n, rfl⟩
  rcases two with ⟨k, rfl⟩
  rw [raises, raises] at same
  rw [pow_right_injective₀ positive (ne_of_lt below) same]

end

/-! ### A function that raises -/

/-- `pow` for whole exponents. -/
def wholePow (base exponent : ℚ) : ℚ := base ^ exponent.num

theorem raisesWhole_wholePow : RaisesWhole wholePow := by
  intro base n
  unfold wholePow
  rw [Rat.num_natCast, zpow_natCast]

/-- Powers with whole exponents weaken. -/
theorem weakening_wholePow : Weakening wholePow := by
  intro base range exponent nonneg
  unfold wholePow
  have whole : 0 ≤ exponent.num := Rat.num_nonneg.mpr nonneg
  obtain ⟨steps, same⟩ := Int.eq_ofNat_of_zero_le whole
  rw [same, zpow_natCast]
  exact ⟨pow_nonneg range.1 steps, pow_le_one₀ range.1 range.2⟩

end MqEcn.Ns2

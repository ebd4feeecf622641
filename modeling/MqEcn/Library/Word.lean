import Mathlib.Algebra.Group.Nat.Defs
import Mathlib.Algebra.Ring.Int.Defs
import Mathlib.Tactic.Common

/-!
Contract: fixed-width C integers over `Nat` and `Int`.

Owns: truncation to the unsigned widths, the unsigned subtraction that C takes
modulo `2 ^ 32` or `2 ^ 64`, the conversions between signed and unsigned
values, the conditions under which each of them is the exact operation, and the
arithmetic of integers read modulo `2 ^ 64`.

Does not own: any particular machine, and shifts, which the callers write with
the operators of `Nat` and `Int`.
-/

set_option autoImplicit false

namespace MqEcn.Library.Word

/-- Conversion of a non-negative value to a 16-bit unsigned integer. -/
def u16 (value : Nat) : Nat := value % 2 ^ 16

/-- Conversion of a non-negative value to a 32-bit unsigned integer. -/
def u32 (value : Nat) : Nat := value % 2 ^ 32

/-- Conversion of a non-negative value to a 64-bit unsigned integer. -/
def u64 (value : Nat) : Nat := value % 2 ^ 64

/-- Conversion of a signed value to a 32-bit unsigned integer. -/
def u32OfInt (value : Int) : Nat := (value % 2 ^ 32).toNat

/-- Conversion of a signed value to a 64-bit unsigned integer. -/
def u64OfInt (value : Int) : Nat := (value % 2 ^ 64).toNat

/-- Conversion to a 32-bit signed integer, two's complement. -/
def s32 (value : Int) : Int := Int.bmod value (2 ^ 32)

/-- Conversion to a 64-bit signed integer, two's complement. -/
def s64 (value : Int) : Int := Int.bmod value (2 ^ 64)

/-- Subtraction of 32-bit unsigned integers. -/
def u32Sub (left right : Nat) : Nat := u32 (left + (2 ^ 32 - u32 right))

/-- Subtraction of 64-bit unsigned integers. -/
def u64Sub (left right : Nat) : Nat := u64 (left + (2 ^ 64 - u64 right))

theorem u32_of_lt {value : Nat} (small : value < 2 ^ 32) : u32 value = value :=
  Nat.mod_eq_of_lt small

theorem u64_of_lt {value : Nat} (small : value < 2 ^ 64) : u64 value = value :=
  Nat.mod_eq_of_lt small

theorem u32_lt (value : Nat) : u32 value < 2 ^ 32 :=
  Nat.mod_lt _ (by decide)

/-- A subtraction whose result is non-negative does not wrap. -/
theorem u32Sub_of_le {left right : Nat} (small : left < 2 ^ 32) (le : right ≤ left) :
    u32Sub left right = left - right := by
  unfold u32Sub u32
  omega

theorem u64Sub_of_le {left right : Nat} (small : left < 2 ^ 64) (le : right ≤ left) :
    u64Sub left right = left - right := by
  unfold u64Sub u64
  omega

/-- Adding back what a subtraction took restores the minuend. -/
theorem u32Sub_add_of_le {left right : Nat} (small : left < 2 ^ 32) (le : right ≤ left) :
    u32Sub left right + right = left := by
  rw [u32Sub_of_le small le]
  omega

/-- A value in the signed range is converted to itself. -/
theorem s64_of_range {value : Int} (low : -2 ^ 63 ≤ value) (high : value < 2 ^ 63) :
    s64 value = value := by
  unfold s64
  rw [Int.bmod_def]
  split <;> omega

theorem s32_of_range {value : Int} (low : -2 ^ 31 ≤ value) (high : value < 2 ^ 31) :
    s32 value = value := by
  unfold s32
  rw [Int.bmod_def]
  split <;> omega

/-- A converted value is in the signed range. -/
theorem s64_range (value : Int) : -2 ^ 63 ≤ s64 value ∧ s64 value < 2 ^ 63 := by
  unfold s64
  rw [Int.bmod_def]
  split <;> omega

/-! ### Integer times modulo `2 ^ 32` -/

theorem u32_add_u32OfInt (time increment : Int) :
    u32 (u32OfInt time + u32OfInt increment) = u32OfInt (time + increment) := by
  unfold u32 u32OfInt
  omega

theorem u32Sub_u32OfInt (x y : Int) :
    u32Sub (u32OfInt x) (u32OfInt y) = u32OfInt (x - y) := by
  unfold u32Sub u32 u32OfInt
  omega

/-- The signed difference of two readings depends on the times alone. -/
theorem s32_sub_u32OfInt (x y : Int) :
    s32 ((u32OfInt x : Int) - u32OfInt y) = s32 (x - y) := by
  have left : ((u32OfInt x : Nat) : Int) = x % 2 ^ 32 := by
    unfold u32OfInt
    omega
  have right : ((u32OfInt y : Nat) : Int) = y % 2 ^ 32 := by
    unfold u32OfInt
    omega
  rw [left, right]
  unfold s32
  rw [Int.bmod_eq_bmod_iff_bmod_sub_eq_zero]
  have turns : x % 2 ^ 32 - y % 2 ^ 32 - (x - y) =
      ((2 ^ 32 : Nat) : Int) * (y / 2 ^ 32 - x / 2 ^ 32) := by
    push_cast
    omega
  rw [turns]
  exact Int.bmod_eq_zero_of_dvd (Int.dvd_mul_right _ _)

/-- A distance that lags by less than half the range and reads as ahead is ahead, and its
excess shows in the unsigned reading too. -/
theorem lt_of_s32_pos {distance ahead : Int} (ordered : 0 ≤ distance) (positive : 0 < ahead)
    (half : ahead < 2 ^ 31) (reads : 0 < s32 (distance - ahead)) :
    ahead < distance ∧ ahead < u32OfInt distance := by
  unfold s32 at reads
  rw [Int.bmod_def] at reads
  unfold u32OfInt
  split at reads
  · omega
  · omega

/-! ### Integer times modulo `2 ^ 64` -/

theorem u64_add_u64OfInt (increment : Nat) (time : Int) :
    u64 (increment + u64OfInt time) = u64OfInt (time + increment) := by
  unfold u64 u64OfInt
  omega

theorem u64_u64OfInt_add (time : Int) (increment : Nat) :
    u64 (u64OfInt time + increment) = u64OfInt (time + increment) := by
  unfold u64 u64OfInt
  omega

/-- The difference of two readings is the reading of the difference. -/
theorem u64Sub_u64OfInt {x y : Int} (ordered : y ≤ x) (near : x - y < 2 ^ 64) :
    (u64Sub (u64OfInt x) (u64OfInt y) : Int) = x - y := by
  unfold u64Sub u64 u64OfInt
  omega

/-- Translating a time and advancing it commute. -/
theorem u64_shift_add (time increment c : Nat) :
    u64 (u64 (time + c) + increment) = u64 (u64 (time + increment) + c) := by
  unfold u64
  omega

theorem u64_add_shift (time increment c : Nat) :
    u64 (increment + u64 (time + c)) = u64 (u64 (increment + time) + c) := by
  unfold u64
  omega

end MqEcn.Library.Word

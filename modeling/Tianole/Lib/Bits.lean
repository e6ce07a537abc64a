import Mathlib.Algebra.Order.Ring.Nat
import Mathlib.Data.Nat.Bitwise

/-! Masks of consecutive bits, as arithmetic. -/
namespace Bits

variable {k w x y : ℕ}

theorem testBit_mask (h : k ≤ w) (i : ℕ) :
    (2 ^ w - 2 ^ k).testBit i = (decide (k ≤ i) && decide (i < w)) := by
  have hshift : 2 ^ w - 2 ^ k = (2 ^ (w - k) - 1) <<< k := by
    rw [Nat.shiftLeft_eq, Nat.sub_mul, ← Nat.pow_add, Nat.sub_add_cancel h, Nat.one_mul]
  rw [hshift, Nat.testBit_shiftLeft, Nat.testBit_two_pow_sub_one]
  by_cases hk : k ≤ i
  · have hiff : i - k < w - k ↔ i < w := by omega
    simp [hk, hiff]
  · simp [hk]

/-- The bits from `k` up to `w`. -/
theorem land_mask (h : k ≤ w) : x &&& (2 ^ w - 2 ^ k) = x % 2 ^ w / 2 ^ k * 2 ^ k := by
  refine Nat.eq_of_testBit_eq fun i => ?_
  rw [Nat.testBit_land, testBit_mask h, ← Nat.shiftRight_eq_div_pow, ← Nat.shiftLeft_eq,
    Nat.testBit_shiftLeft, Nat.testBit_shiftRight, Nat.testBit_mod_two_pow]
  by_cases hk : k ≤ i
  · simp [hk, Nat.add_sub_cancel' hk, Bool.and_comm]
  · simp [hk]

/-- Rounding down to a multiple of `2 ^ k`. -/
theorem land_high (h : k ≤ w) (hx : x < 2 ^ w) : x &&& (2 ^ w - 2 ^ k) = x / 2 ^ k * 2 ^ k := by
  rw [land_mask h, Nat.mod_eq_of_lt hx]

end Bits

import Tianole.Lib.Bits

/-! Unsigned 64-bit arithmetic on natural numbers. -/
namespace Word
open Bits

/-- Reduction of a result modulo the word size. -/
def wrap64 (n : ℕ) : ℕ := n % 2 ^ 64

/-- The difference of two words. -/
def sub64 (a b : ℕ) : ℕ := wrap64 (a + 2 ^ 64 - b)

/-- The complement of a word. -/
def not64 (n : ℕ) : ℕ := 2 ^ 64 - 1 - n

variable {a b n k : ℕ}

@[simp] theorem wrap64_of_lt (h : n < 2 ^ 64) : wrap64 n = n := Nat.mod_eq_of_lt h

theorem sub64_of_le (h : b ≤ a) (ha : a < 2 ^ 64) : sub64 a b = a - b := by
  have hsum : a + 2 ^ 64 - b = a - b + 2 ^ 64 := by omega
  rw [sub64, wrap64, hsum, Nat.add_mod_right, Nat.mod_eq_of_lt (by omega)]

/-- Clearing the low bits rounds down. -/
theorem land_not64 (hk : k ≤ 64) (hn : n < 2 ^ 64) :
    n &&& not64 (2 ^ k - 1) = n / 2 ^ k * 2 ^ k := by
  have hpos : 0 < 2 ^ k := Nat.two_pow_pos k
  have hmask : not64 (2 ^ k - 1) = 2 ^ 64 - 2 ^ k := by
    unfold not64
    omega
  rw [hmask, land_high hk hn]

end Word

import Mathlib.Data.Int.Notation
import Tianole.Lib.Word

/-! What the memory manager shares: page size, rounding, error codes and the ways in which
its code stops. -/
namespace Tianole.Mm
open Word

def pageSize : ℕ := 4096

def enoent : ℤ := 2
def enomem : ℤ := 12
def eexist : ℤ := 17
def einval : ℤ := 22

inductive Panic where
  | kernelHeapInitializationFailed
  | kernelHeapSelftestAllocationFailed
  | kernelHeapSelftestMemoryCorrupted
  | kernelHeapSelftestReuseFailed
  | invalidPhysicalPageFree
  | memoryMapUnavailable
  | tooManyActivePageTablePages
  deriving DecidableEq, Repr

/-- How code can fail to return: it panics, or a loop runs out of its step budget. -/
inductive Stop where
  | panic (reason : Panic)
  | hang
  deriving DecidableEq, Repr

def alignDown (value alignment : ℕ) : ℕ := value &&& not64 (alignment - 1)

def alignUp (value alignment : ℕ) : ℕ := alignDown (wrap64 (value + alignment - 1)) alignment

variable {n k : ℕ}

theorem alignDown_eq (hk : k ≤ 64) (hn : n < 2 ^ 64) :
    alignDown n (2 ^ k) = n / 2 ^ k * 2 ^ k := land_not64 hk hn

theorem alignUp_eq (hk : k ≤ 64) (hn : n + 2 ^ k - 1 < 2 ^ 64) :
    alignUp n (2 ^ k) = (n + 2 ^ k - 1) / 2 ^ k * 2 ^ k := by
  rw [alignUp, wrap64_of_lt hn, alignDown_eq hk hn]

theorem land_pageOffset (n : ℕ) : n &&& (pageSize - 1) = n % pageSize :=
  Nat.and_two_pow_sub_one_eq_mod n 12

theorem land_pageOffset_of_dvd (hd : pageSize ∣ n) : n &&& (pageSize - 1) = 0 := by
  rw [land_pageOffset, Nat.mod_eq_zero_of_dvd hd]

theorem alignDown_of_dvd (hd : pageSize ∣ n) (hn : n < 2 ^ 64) : alignDown n pageSize = n :=
  (alignDown_eq (k := 12) (by decide) hn).trans (Nat.div_mul_cancel hd)

theorem alignUp_of_dvd (hd : pageSize ∣ n) (hn : n + pageSize < 2 ^ 64) :
    alignUp n pageSize = n := by
  have hpow : pageSize = 2 ^ 12 := rfl
  rw [hpow] at hd hn ⊢
  rw [alignUp_eq (by decide) (by omega)]
  omega

end Tianole.Mm

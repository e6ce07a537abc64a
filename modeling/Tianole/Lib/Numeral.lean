import Mathlib.Data.Int.Notation
import Mathlib.Data.Nat.Digits.Lemmas

/-! Canonical numerals as bytes, and their digits from the last one to the first, which is how digit
loops produce them. -/
namespace Numeral

/-- The numeral of a number in a base: the most significant digit first, and no leading zero. -/
def numeral (base value : ℕ) : List UInt8 := (Nat.toDigits base value).map Char.toUInt8

/-- The decimal numeral of an integer, with a sign if it is negative. -/
def signedNumeral (value : ℤ) : List UInt8 := (toString value).toList.map Char.toUInt8

def digitByte (digit : ℕ) : UInt8 := (Nat.digitChar digit).toUInt8

theorem numeral_eq {base : ℕ} (hbase : 1 < base) (value : ℕ) : numeral base value =
    if value = 0 then [0x30] else ((Nat.digits base value).map digitByte).reverse := by
  -- The induction drops the last digit.
  induction value using Nat.strong_induction_on with
  | _ value ih =>
    by_cases hsmall : value < base
    · rw [numeral, Nat.toDigits_of_lt_base hsmall]
      split
      next hzero =>
        rw [hzero]
        rfl
      next hne =>
        rw [Nat.digits_of_lt base value hne hsmall]
        rfl
    · have hle : base ≤ value := Nat.le_of_not_lt hsmall
      have hpos : 0 < value := by omega
      have hquotient : value / base ≠ 0 := (Nat.div_pos hle (by omega)).ne'
      have hprefix := ih (value / base) (Nat.div_lt_self hpos hbase)
      rw [if_neg hquotient, numeral] at hprefix
      rw [numeral, Nat.toDigits_of_base_le hbase hle, if_neg hpos.ne', Nat.digits_def' hbase hpos,
        List.map_append, hprefix, List.map_cons (f := digitByte), List.reverse_cons]
      rfl

theorem signedNumeral_eq (value : ℤ) : signedNumeral value =
    (if value < 0 then [0x2d] else []) ++ numeral 10 value.natAbs := by
  have hnat (n : ℕ) : (toString n).toList = Nat.toDigits 10 n := String.toList_ofList
  cases value with
  | ofNat n =>
    have hpos : ¬ Int.ofNat n < 0 := Int.not_lt.mpr (Int.natCast_nonneg n)
    rw [if_neg hpos, List.nil_append]
    exact congrArg (List.map Char.toUInt8) (hnat n)
  | negSucc n =>
    have hsign : (toString (Int.negSucc n)).toList = '-' :: Nat.toDigits 10 (n + 1) := by
      rw [← hnat]
      exact String.toList_append
    rw [if_pos (Int.negSucc_lt_zero n), signedNumeral, hsign]
    rfl

end Numeral

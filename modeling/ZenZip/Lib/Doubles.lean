import Mathlib.Data.Int.Log
import Mathlib.Data.Rat.Floor

namespace ZenZip.Lib

def roundHalfEven (x : ℚ) : Int :=
  if x - ⌊x⌋ < 1 / 2 ∨ x - ⌊x⌋ = 1 / 2 ∧ ⌊x⌋ % 2 = 0 then ⌊x⌋ else ⌊x⌋ + 1

/-- What the last bit of a double stands for that is as large as `x`. -/
def ulp (x : ℚ) : ℚ := 2 ^ max (Int.log 2 x - 52) (-1074)

def toDouble (x : ℚ) : ℚ := roundHalfEven (x / ulp x) * ulp x

theorem roundHalfEven_intCast (n : Int) : roundHalfEven n = n := by
  simp [roundHalfEven]

theorem toDouble_natCast {n : Nat} (h : n < 2 ^ 53) : toDouble n = n := by
  have hlog : Nat.log 2 n ≤ 52 := Nat.le_of_lt_succ (Nat.log_lt_of_lt_pow' (by decide) h)
  obtain ⟨k, hk⟩ : ∃ k : Nat, ulp n = 2 ^ (-(k : Int)) := by
    refine ⟨(-max (Int.log 2 (n : ℚ) - 52) (-1074)).toNat, ?_⟩
    have hle : max (Int.log 2 (n : ℚ) - 52) (-1074) ≤ 0 := by
      rw [Int.log_natCast]
      omega
    rw [Int.toNat_of_nonneg (neg_nonneg.mpr hle), neg_neg]
    rfl
  have hpow : (2 : ℚ) ^ k ≠ 0 := pow_ne_zero k two_ne_zero
  have hdiv : (n : ℚ) / 2 ^ (-(k : Int)) = ((n * 2 ^ k : Nat) : Int) := by
    rw [zpow_neg, zpow_natCast, div_inv_eq_mul]
    push_cast
    rfl
  rw [toDouble, hk, hdiv, roundHalfEven_intCast, zpow_neg, zpow_natCast]
  push_cast
  rw [mul_assoc, mul_inv_cancel₀ hpow, mul_one]

example : toDouble (8 / (7205759403792794 / 2 ^ 51)) = 5 / 2 := by decide +kernel

end ZenZip.Lib

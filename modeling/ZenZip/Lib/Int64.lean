import Mathlib.Algebra.Order.Ring.Int

namespace ZenZip.Lib

def i64Min : Int := -9223372036854775808

def i64Max : Int := 9223372036854775807

def checked (n : Int) : Option Int := if i64Min ≤ n ∧ n ≤ i64Max then some n else none

def wrap (n : Int) : Int := (Int64.ofInt n).toInt

variable {n m : Int}

theorem checked_eq_some : checked n = some m ↔ n = m ∧ i64Min ≤ n ∧ n ≤ i64Max := by
  rw [checked]
  split
  · next h => rw [Option.some.injEq, and_iff_left h]
  · next h => simp [h]

theorem checked_of_lt (h : i64Max < n) : checked n = none :=
  if_neg (fun hn => absurd hn.2 (not_le.mpr h))

theorem wrap_eq (hmin : i64Min ≤ n) (hmax : n ≤ i64Max) : wrap n = n :=
  Int64.toInt_ofInt_of_le hmin (Int.lt_add_one_iff.mpr hmax)

theorem i64Min_le_toInt (x : Int64) : i64Min ≤ x.toInt := x.le_toInt

end ZenZip.Lib

import Mathlib.Data.Int.Log
import Mathlib.Data.Rat.Floor

/-!
# Rounding to double precision

The rational numbers that a program computes with in doubles, as long as it stays within the range
of the normal numbers: the result of an operation is the exact one, rounded to 53 significant bits,
to the nearest such number and to the even one of two that are equally near.
-/

namespace ZalemCoin.Lib

/-- The nearest integer, and the even one of two that are equally near. -/
def roundHalfEven (q : ℚ) : ℤ :=
  if q - ⌊q⌋ < 1 / 2 ∨ (q - ⌊q⌋ = 1 / 2 ∧ ⌊q⌋ % 2 = 0) then ⌊q⌋ else ⌊q⌋ + 1

/-- The exponent of the last one of the 53 significant bits of a positive number. -/
def lastPlace (q : ℚ) : ℤ := Int.log 2 q - 52

/-- The double nearest to a number that is not negative. -/
def toDouble (q : ℚ) : ℚ :=
  if q = 0 then 0 else roundHalfEven (q / 2 ^ lastPlace q) * 2 ^ lastPlace q

def nearestDouble (q : ℚ) : ℚ := if q < 0 then -toDouble (-q) else toDouble q

theorem le_roundHalfEven {n : ℤ} {q : ℚ} (h : (n : ℚ) ≤ q) : n ≤ roundHalfEven q := by
  have hfloor : n ≤ ⌊q⌋ := Int.le_floor.mpr h
  unfold roundHalfEven
  split <;> omega

theorem two_zpow_le_toDouble {k : ℤ} {q : ℚ} (h : (2 : ℚ) ^ k ≤ q) : (2 : ℚ) ^ k ≤ toDouble q := by
  have hpos : 0 < q := lt_of_lt_of_le (zpow_pos two_pos k) h
  have hk : k ≤ Int.log 2 q := (Int.zpow_le_iff_le_log one_lt_two hpos).mp (by exact_mod_cast h)
  have hlog : (2 : ℚ) ^ Int.log 2 q ≤ q := by exact_mod_cast Int.zpow_log_le_self one_lt_two hpos
  have hplace : (0 : ℚ) < 2 ^ lastPlace q := zpow_pos two_pos _
  have hsplit : (2 : ℚ) ^ Int.log 2 q = 2 ^ (52 : ℕ) * 2 ^ lastPlace q := by
    rw [← zpow_natCast, ← zpow_add₀ (by norm_num)]
    unfold lastPlace
    congr 1
    push_cast
    ring
  have hscaled : (((2 ^ 52 : ℕ) : ℤ) : ℚ) ≤ q / 2 ^ lastPlace q := by
    rw [le_div_iff₀ hplace]
    push_cast
    exact hsplit ▸ hlog
  have hrnd : ((2 : ℚ) ^ (52 : ℕ)) ≤ roundHalfEven (q / 2 ^ lastPlace q) := by
    exact_mod_cast le_roundHalfEven hscaled
  unfold toDouble
  rw [if_neg hpos.ne']
  calc (2 : ℚ) ^ k ≤ 2 ^ Int.log 2 q := zpow_le_zpow_right₀ (by norm_num) hk
    _ = 2 ^ (52 : ℕ) * 2 ^ lastPlace q := hsplit
    _ ≤ roundHalfEven (q / 2 ^ lastPlace q) * 2 ^ lastPlace q := by gcongr

example : toDouble (1 / 10) = 3602879701896397 / 36028797018963968 := by decide +kernel

end ZalemCoin.Lib

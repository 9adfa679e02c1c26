import Mathlib
import Orka.Lib.Numerals

/-!
# Rounding to the binary16 grid

The finite binary16 numbers near `x` are the multiples of a power of two, `2 ^ spacing x`: eleven significant bits, and never
finer than the subnormal step `2 ^ (-24)`. Rounding goes to the nearest multiple, a tie to the even one. Values are taken from
any ordered field with a floor, so that the grid can be computed on the rationals and reasoned about on the reals.
-/

namespace Binary16

section Nearest

variable {α : Type} [Field α] [LinearOrder α] [FloorRing α]

/-- The nearest integer; a tie goes to the even one. -/
def roundEven (x : α) : ℤ :=
  if x - ⌊x⌋ < 1 / 2 then ⌊x⌋
  else if 1 / 2 < x - ⌊x⌋ then ⌊x⌋ + 1
  else if ⌊x⌋ % 2 = 0 then ⌊x⌋ else ⌊x⌋ + 1

/-- Rounding does not go below the floor. -/
theorem floor_le_roundEven (x : α) : ⌊x⌋ ≤ roundEven x := by
  unfold roundEven
  split_ifs <;> omega

end Nearest

section Grid

variable {α : Type} [Field α] [LinearOrder α] [IsStrictOrderedRing α] [FloorRing α]

/-- The exponent of the step of the grid around `x`. -/
def spacing (x : α) : ℤ := max (Int.log 2 |x|) (-14) - 10

/-- `x` rounded to the binary16 grid. -/
def round16 (x : α) : α := roundEven (x / 2 ^ spacing x) * 2 ^ spacing x

/-- The least positive grid value is a lower bound for what values above it round to. -/
theorem round16_pos {x : α} (hx : (2 : α) ^ (-24 : ℤ) ≤ x) : 0 < round16 x := by
  have h24 : (0 : α) < 2 ^ (-24 : ℤ) := by positivity
  have hpos : 0 < x := lt_of_lt_of_le h24 hx
  have hstep : (0 : α) < 2 ^ spacing x := by positivity
  have hle : (2 : α) ^ spacing x ≤ x := by
    rcases le_total (Int.log 2 |x|) (-14) with h | h
    · rw [spacing, max_eq_right h]
      exact hx
    · rw [spacing, max_eq_left h]
      calc (2 : α) ^ (Int.log 2 |x| - 10) ≤ 2 ^ Int.log 2 |x| := zpow_le_zpow_right₀ (by norm_num) (by omega)
        _ ≤ x := by
          rw [abs_of_pos hpos]
          exact_mod_cast Int.zpow_log_le_self (b := 2) (by norm_num) hpos
  have hfloor : 1 ≤ ⌊x / 2 ^ spacing x⌋ := by
    rw [Int.le_floor, Int.cast_one, one_le_div hstep]
    exact hle
  have hround : (1 : α) ≤ (roundEven (x / 2 ^ spacing x) : ℤ) := by
    exact_mod_cast hfloor.trans (floor_le_roundEven _)
  exact mul_pos (by linarith) hstep

end Grid

end Binary16

import Orka.Lib.Lattice

/-!
# The binary16 grid

Rounding to binary16 as a map onto its grid: every rounded number lies on the grid, none of the grid is nearer, and so rounding keeps
the order and leaves the grid as it is. Range is not part of it: a grid number may be larger than binary16 holds.
-/

namespace Binary16

open Lattice

set_option linter.unusedSectionVars false

section Integers

variable {α : Type} [Field α] [LinearOrder α] [IsStrictOrderedRing α] [FloorRing α]

/-- An integer rounds to itself. -/
@[simp] theorem roundEven_intCast (n : ℤ) : roundEven (n : α) = n := by
  unfold roundEven
  rw [Int.floor_intCast, sub_self, if_pos (by norm_num)]

@[simp] theorem roundEven_zero : roundEven (0 : α) = 0 := by
  have := roundEven_intCast (α := α) 0
  rwa [Int.cast_zero] at this

/-- Above `n - 1/2` a number rounds to `n` at least. -/
theorem le_roundEven {x : α} {n : ℤ} (h : (n : α) - 1 / 2 < x) : n ≤ roundEven x := by
  have := (abs_le.1 (abs_sub_roundEven_le x)).2
  have hlt : (n : α) < roundEven x + 1 := by linarith
  exact Int.lt_add_one_iff.1 (by exact_mod_cast hlt)

/-- Below `n + 1/2` a number rounds to `n` at most. -/
theorem roundEven_le {x : α} {n : ℤ} (h : x < n + 1 / 2) : roundEven x ≤ n := by
  have := (abs_le.1 (abs_sub_roundEven_le x)).1
  have hlt : (roundEven x : α) < n + 1 := by linarith
  exact Int.lt_add_one_iff.1 (by exact_mod_cast hlt)

theorem roundEven_eq {x : α} {n : ℤ} (h1 : (n : α) - 1 / 2 < x) (h2 : x < n + 1 / 2) : roundEven x = n :=
  le_antisymm (roundEven_le h2) (le_roundEven h1)

/-- Rounding keeps the order. -/
theorem roundEven_mono {x y : α} (h : x ≤ y) : roundEven x ≤ roundEven y := by
  rcases h.eq_or_lt with rfl | hlt
  · exact le_rfl
  · have hx := (abs_le.1 (abs_sub_roundEven_le x)).1
    have hy := (abs_le.1 (abs_sub_roundEven_le y)).2
    have : (roundEven x : α) < roundEven y + 1 := by linarith
    exact Int.lt_add_one_iff.1 (by exact_mod_cast this)

/-- A tie goes to the even integer. -/
theorem even_roundEven_of_tie {x : α} (h : |x - roundEven x| = 1 / 2) : Even (roundEven x) := by
  have h1 := Int.floor_le x
  have h2 := Int.lt_floor_add_one x
  unfold roundEven at h ⊢
  rw [Int.even_iff]
  split_ifs at h ⊢ with ha hb hc
  · rw [abs_of_nonneg (by linarith)] at h
    linarith
  · push_cast at h
    rw [abs_of_neg (by linarith)] at h
    linarith
  · exact hc
  · omega

/-- Rounding is odd. -/
theorem roundEven_neg (x : α) : roundEven (-x) = -roundEven x := by
  have hx := abs_sub_roundEven_le x
  have hn := abs_sub_roundEven_le (-x)
  by_contra hne
  -- two integers within a half of one number lie on both sides of it, and both would be even
  have hdist : (1 : α) ≤ |((roundEven (-x) : ℤ) : α) - ((-roundEven x : ℤ) : α)| := by
    rw [← Int.cast_sub, ← Int.cast_abs]
    exact_mod_cast Int.one_le_abs (sub_ne_zero.2 hne)
  have hxn : |-x - ((-roundEven x : ℤ) : α)| = |x - roundEven x| := by
    push_cast
    rw [show -x - -((roundEven x : ℤ) : α) = -(x - roundEven x) by ring, abs_neg]
  have htri : |((roundEven (-x) : ℤ) : α) - ((-roundEven x : ℤ) : α)| ≤ |-x - roundEven (-x)| + |-x - ((-roundEven x : ℤ) : α)| := by
    rw [abs_sub_comm (-x) ((roundEven (-x) : ℤ) : α)]
    exact abs_sub_le _ _ _
  rw [hxn] at htri
  have e1 : Even (roundEven x) := even_roundEven_of_tie (by linarith)
  have e2 : Even (roundEven (-x)) := even_roundEven_of_tie (by linarith)
  have hone : |((roundEven (-x) : ℤ) : α) - ((-roundEven x : ℤ) : α)| = 1 := by linarith
  rw [← Int.cast_sub, ← Int.cast_abs] at hone
  have hint : |roundEven (-x) - -roundEven x| = 1 := by exact_mod_cast hone
  have heven : Even (roundEven (-x) - -roundEven x) := e2.sub e1.neg
  rw [← even_abs, hint] at heven
  exact absurd heven (by decide)

end Integers

section Grid

variable {α : Type} [Field α] [LinearOrder α] [IsStrictOrderedRing α] [FloorRing α]

/-- The numbers of eleven significant bits whose last bit is worth `2 ^ (-24)` or more. -/
def Grid (g : α) : Prop := ∃ n e : ℤ, -24 ≤ e ∧ |n| ≤ 2 ^ 11 ∧ g = n * 2 ^ e

/-- No spacing is finer than that of the subnormals. -/
theorem spacing_ge (x : α) : -24 ≤ spacing x := by
  unfold spacing
  omega

theorem spacing_neg (x : α) : spacing (-x) = spacing x := by rw [spacing, abs_neg, spacing]

/-- Rounding to half precision is odd. -/
theorem round16_neg (x : α) : round16 (-x) = -round16 x := by
  rw [round16, spacing_neg, neg_div, roundEven_neg, round16]
  push_cast
  ring

@[simp] theorem round16_zero : round16 (0 : α) = 0 := by
  rw [round16, zero_div, roundEven_zero, Int.cast_zero, zero_mul]

/-- A number lies less than `2 ^ 11` steps of its grid away from zero. -/
theorem abs_lt_spacing (x : α) : |x| < 2 ^ (spacing x + 11) := by
  rcases eq_or_ne x 0 with rfl | hx
  · rw [abs_zero]
    positivity
  · have hlog : |x| < 2 ^ (Int.log 2 |x| + 1) := Int.lt_zpow_succ_log_self (by norm_num) _
    refine hlog.trans_le (zpow_le_zpow_right₀ (by norm_num) ?_)
    unfold spacing
    omega

/-- Off the finest spacing a number is at least `2 ^ 10` steps away from zero. -/
theorem spacing_le_abs {x : α} (hx : x ≠ 0) (h : -24 < spacing x) : (2 : α) ^ (spacing x + 10) ≤ |x| := by
  have hlog : spacing x = Int.log 2 |x| - 10 := by
    unfold spacing at h ⊢
    omega
  rw [hlog, sub_add_cancel]
  exact_mod_cast Int.zpow_log_le_self (b := 2) (by norm_num) (abs_pos.2 hx)

/-- What rounding gives lies on the grid. -/
theorem round16_grid (x : α) : Grid (round16 x) := by
  refine ⟨roundEven (x / 2 ^ spacing x), spacing x, spacing_ge x, ?_, rfl⟩
  have hstep : (0 : α) < 2 ^ spacing x := by positivity
  have hlt : |x / 2 ^ spacing x| < 2 ^ 11 := by
    rw [abs_div, abs_of_pos hstep, div_lt_iff₀ hstep]
    calc |x| < 2 ^ (spacing x + 11) := abs_lt_spacing x
      _ = 2 ^ 11 * 2 ^ spacing x := by
        rw [zpow_add₀ (by norm_num), mul_comm]
        norm_num
  rw [abs_lt] at hlt
  rw [abs_le]
  constructor
  · exact le_roundEven (by push_cast; linarith [hlt.1])
  · exact roundEven_le (by push_cast; linarith [hlt.2])

/-- On the multiples of its step, a number is rounded to the nearest. -/
theorem abs_sub_round16_le_mul (x : α) (z : ℤ) : |x - round16 x| ≤ |x - z * 2 ^ spacing x| := by
  have hstep : (0 : α) < 2 ^ spacing x := by positivity
  have hscale : ∀ w : ℤ, |x - w * 2 ^ spacing x| = |x / 2 ^ spacing x - w| * 2 ^ spacing x := by
    intro w
    rw [← abs_of_pos hstep, ← abs_mul, abs_of_pos hstep, sub_mul, div_mul_cancel₀ _ hstep.ne']
  rw [round16, hscale, hscale]
  exact mul_le_mul_of_nonneg_right (abs_sub_le_of_half (abs_sub_roundEven_le _) z) hstep.le

/-- **No number of the grid is nearer than the rounded one.** -/
theorem abs_sub_round16_le {g : α} (hg : Grid g) (x : α) : |x - round16 x| ≤ |x - g| := by
  obtain ⟨n, e, he, hn, rfl⟩ := hg
  rcases eq_or_ne x 0 with rfl | hx0
  · rw [round16_zero, sub_self, abs_zero]
    exact abs_nonneg _
  rcases le_or_gt (spacing x) e with hle | hlt
  · -- the grid number is a multiple of the step
    have hmul : (n : α) * 2 ^ e = ((n * 2 ^ (e - spacing x).toNat : ℤ) : α) * 2 ^ spacing x := by
      push_cast
      rw [mul_assoc, ← zpow_natCast, ← zpow_add₀ (by norm_num), Int.toNat_of_nonneg (by omega), sub_add_cancel]
    rw [hmul]
    exact abs_sub_round16_le_mul x _
  · -- it is finer, hence not farther from zero than `2 ^ 10` steps, which lies between it and `x`
    have hfar := spacing_le_abs hx0 (by omega)
    have hsmall : |(n : α) * 2 ^ e| ≤ 2 ^ (spacing x + 10) := by
      rw [abs_mul, abs_of_pos (show (0 : α) < 2 ^ e by positivity), ← Int.cast_abs]
      calc ((|n| : ℤ) : α) * 2 ^ e ≤ 2 ^ 11 * 2 ^ e := mul_le_mul_of_nonneg_right (by exact_mod_cast hn) (by positivity)
        _ = 2 ^ (e + 11) := by
          rw [zpow_add₀ (by norm_num), mul_comm]
          norm_num
        _ ≤ 2 ^ (spacing x + 10) := zpow_le_zpow_right₀ (by norm_num) (by omega)
    have hpow : (2 : α) ^ (spacing x + 10) = 2 ^ 10 * 2 ^ spacing x := by
      rw [zpow_add₀ (by norm_num), mul_comm]
      norm_num
    have hdist : |x| - 2 ^ (spacing x + 10) ≤ |x - n * 2 ^ e| := by
      have := abs_sub_abs_le_abs_sub x (n * 2 ^ e)
      linarith
    refine le_trans ?_ hdist
    rcases le_total 0 x with hx | hx
    · have := abs_sub_round16_le_mul x (2 ^ 10)
      rw [abs_of_nonneg hx] at hfar ⊢
      rw [Int.cast_pow, Int.cast_ofNat, ← hpow] at this
      exact this.trans_eq (abs_of_nonneg (by linarith))
    · have := abs_sub_round16_le_mul x (-2 ^ 10)
      rw [abs_of_nonpos hx] at hfar ⊢
      rw [Int.cast_neg, Int.cast_pow, Int.cast_ofNat, neg_mul, ← hpow] at this
      refine this.trans_eq ((abs_of_nonpos (by linarith)).trans ?_)
      ring

/-- A number of the grid is left as it is. -/
theorem round16_of_grid {g : α} (hg : Grid g) : round16 g = g := by
  have := abs_sub_round16_le hg g
  rw [sub_self, abs_zero] at this
  exact (sub_eq_zero.1 (abs_nonpos_iff.1 this)).symm

@[simp] theorem round16_round16 (x : α) : round16 (round16 x) = round16 x := round16_of_grid (round16_grid x)

/-- Rounding to half precision keeps the order. -/
theorem round16_mono {x y : α} (h : x ≤ y) : round16 x ≤ round16 y := by
  by_contra hlt
  push Not at hlt
  have hx := abs_sub_round16_le (round16_grid y) x
  have hy := abs_sub_round16_le (round16_grid x) y
  -- each lies on its side of the middle, so they are equal
  have hxm : (round16 x + round16 y) / 2 ≤ x := by
    by_contra hc
    push Not at hc
    rw [abs_sub_comm x (round16 x), abs_of_pos (by linarith)] at hx
    rcases abs_cases (x - round16 y) with ⟨h1, -⟩ | ⟨h1, -⟩ <;> linarith
  have hym : y ≤ (round16 x + round16 y) / 2 := by
    by_contra hc
    push Not at hc
    rw [abs_of_pos (by linarith)] at hy
    rcases abs_cases (y - round16 x) with ⟨h1, -⟩ | ⟨h1, -⟩ <;> linarith
  obtain rfl : x = y := le_antisymm h (hym.trans hxm)
  exact lt_irrefl _ hlt

theorem round16_nonneg {x : α} (h : 0 ≤ x) : 0 ≤ round16 x := round16_zero (α := α) ▸ round16_mono h

/-! ## Small and large numbers -/

/-- Below `2 ^ (-13)` the grid is the finest one. -/
theorem round16_of_lt {x : α} (h : |x| < 2 ^ (-13 : ℤ)) : round16 x = roundEven (x * 2 ^ 24) * 2 ^ (-24 : ℤ) := by
  rcases eq_or_ne x 0 with rfl | hx
  · rw [round16_zero, zero_mul, roundEven_zero, Int.cast_zero, zero_mul]
  have hspacing : spacing x = -24 := by
    have := (Int.lt_zpow_iff_log_lt (b := 2) (by norm_num) (abs_pos.2 hx)).1 (by exact_mod_cast h)
    unfold spacing
    omega
  rw [round16, hspacing]
  congr 3
  rw [zpow_neg, div_inv_eq_mul]
  norm_num

/-- From `2 ^ (-13)` on, rounding moves a number by at most `2 ^ (-11)` of it. -/
theorem abs_sub_round16_le_of_le {x : α} (h : (2 : α) ^ (-13 : ℤ) ≤ |x|) : |x - round16 x| ≤ |x| / 2 ^ 11 := by
  have hpos : 0 < |x| := lt_of_lt_of_le (by positivity) h
  have hlog : -13 ≤ Int.log 2 |x| := (Int.zpow_le_iff_le_log (b := 2) (by norm_num) hpos).1 (by exact_mod_cast h)
  have hspacing : -24 < spacing x := by
    unfold spacing
    omega
  have hstep : (0 : α) < 2 ^ spacing x := by positivity
  have hfar := spacing_le_abs (abs_pos.1 hpos) hspacing
  have hround : |x - round16 x| ≤ 1 / 2 * 2 ^ spacing x := by
    have hscale : |x - round16 x| = |x / 2 ^ spacing x - roundEven (x / 2 ^ spacing x)| * 2 ^ spacing x := by
      rw [← abs_of_pos hstep, ← abs_mul, abs_of_pos hstep, sub_mul, div_mul_cancel₀ _ hstep.ne', round16]
    rw [hscale]
    exact mul_le_mul_of_nonneg_right (abs_sub_roundEven_le _) hstep.le
  rw [zpow_add₀ (by norm_num)] at hfar
  norm_num at hfar ⊢
  linarith

/-- Below 65520 rounding stays within the range of binary16. -/
theorem abs_round16_le {x : α} (h : |x| < 65520) : |round16 x| ≤ 65504 := by
  have hgrid : Grid (65504 : α) := ⟨2047, 5, by norm_num, by norm_num, by norm_num⟩
  -- by symmetry only numbers above zero matter
  have hmain : ∀ y : α, 0 ≤ y → y < 65520 → round16 y ≤ 65504 := by
    intro y hy0 hy
    rcases le_or_gt y 65504 with hle | hgt
    · exact (round16_mono hle).trans_eq (round16_of_grid hgrid)
    · have hlow : 15 ≤ Int.log 2 |y| := by
        rw [abs_of_nonneg hy0]
        exact (Int.zpow_le_iff_le_log (b := 2) (by norm_num) (by linarith)).1 (by norm_num; linarith)
      have hhigh : Int.log 2 |y| < 16 := by
        rw [abs_of_nonneg hy0]
        exact (Int.lt_zpow_iff_log_lt (b := 2) (by norm_num) (by linarith)).1 (by norm_num; linarith)
      have hspacing : spacing y = 5 := by
        unfold spacing
        omega
      have hround : roundEven (y / 2 ^ (5 : ℤ)) ≤ 2047 := by
        refine roundEven_le ?_
        norm_num
        rw [div_lt_iff₀ (by norm_num)]
        linarith
      rw [round16, hspacing]
      have hint : ((roundEven (y / 2 ^ (5 : ℤ)) : ℤ) : α) ≤ 2047 := by exact_mod_cast hround
      calc ((roundEven (y / 2 ^ (5 : ℤ)) : ℤ) : α) * 2 ^ (5 : ℤ) ≤ 2047 * 2 ^ (5 : ℤ) :=
            mul_le_mul_of_nonneg_right hint (by positivity)
        _ = 65504 := by norm_num
  rcases le_total 0 x with hx | hx
  · rw [abs_of_nonneg (round16_nonneg hx)]
    exact hmain x hx (by rwa [abs_of_nonneg hx] at h)
  · have hneg := hmain (-x) (by linarith) (by rwa [abs_of_nonpos hx] at h)
    have hsign : 0 ≤ round16 (-x) := round16_nonneg (by linarith)
    rw [round16_neg] at hneg hsign
    rwa [abs_of_nonpos (by linarith)]

end Grid

end Binary16

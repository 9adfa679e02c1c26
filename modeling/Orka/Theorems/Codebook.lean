import Orka.Codebook
import Orka.Lemmas.Runtime
import Orka.Lemmas.Normalize
import Orka.Lib.HalfGrid

/-!
# When a codebook of int8 is its own file

The writer quantizes a codebook that has been quantized before. A column keeps its scale, and with it its values, exactly if its
scale times the code of its largest value, over 127, rounds to the scale again; where it does not, the scale shrinks by one step of
the finest grid and the largest value can no longer be reached.
-/

namespace Orka

open Flat Steps Binary16 Lattice NormalizeAux

set_option linter.unusedSectionVars false

variable {α : Type} [Field α] [LinearOrder α] [IsStrictOrderedRing α] [FloorRing α]

/-! ## Scales on the finest grid -/

/-- A scale of `K` steps for a largest value of `127 * X` steps: the code `Q` of that value, if it is not 127, is at least 63, and
`K` times what it misses of 127 is less than 127. -/
theorem code_bounds {X : α} {K Q : ℤ} (hK : K = roundEven X) (hpos : 0 < K) (hQ : Q = roundEven (127 * X / K)) (hlt : Q < 127) :
    63 ≤ Q ∧ K * (127 - Q) < 127 := by
  have hK0 : (0 : α) < K := by exact_mod_cast hpos
  have hK1 : (1 : α) ≤ K := by exact_mod_cast hpos
  have hX := abs_sub_roundEven_le X
  rw [← hK, abs_le] at hX
  have hcode := abs_sub_roundEven_le (127 * X / (K : α))
  rw [← hQ, abs_le, sub_le_iff_le_add, div_le_iff₀ hK0] at hcode
  constructor
  · rw [hQ]
    refine le_roundEven ?_
    rw [lt_div_iff₀ hK0]
    push_cast
    linarith [hX.1]
  · -- rounding the scale and rounding the code each cost at most a half
    have hmiss : (K : α) * (127 - Q) ≤ 127 / 2 + K / 2 := by linarith [hX.1, hcode.2]
    have hint : 2 * (K * (127 - Q)) ≤ 127 + K := by
      have : (2 : α) * (K * (127 - Q)) ≤ 127 + K := by linarith
      exact_mod_cast this
    rcases lt_trichotomy K 127 with h | h | h
    · omega
    · -- at 127 steps the scale is odd, so it was not a tie
      have hstrict : X - K ≠ -(1 / 2) := by
        intro htie
        have hodd : Even K := by
          rw [hK]
          refine even_roundEven_of_tie ?_
          rw [← hK, htie, abs_neg, abs_of_pos (by norm_num)]
        rw [h] at hodd
        exact absurd hodd (by decide)
      have hXlt : -(1 / 2 : α) < X - K := lt_of_le_of_ne hX.1 (Ne.symm hstrict)
      have : (K : α) * (127 - Q) < 127 / 2 + K / 2 := by linarith [hcode.2]
      have hK127 : (K : α) = 127 := by exact_mod_cast h
      have hltα : (K : α) * (127 - Q) < 127 := by linarith
      exact_mod_cast hltα
    · have hone : K ≤ K * (127 - Q) := le_mul_of_one_le_right hpos.le (by omega)
      omega

/-- The step count of the second scale: the same if the code misses little, and else one less. -/
theorem second_scale {K Q : ℤ} (hpos : 0 < K) (hlt : Q ≤ 127) (hmiss : K * (127 - Q) < 127) :
    roundEven ((Q : α) * K / 127) = if 2 * (K * (127 - Q)) < 127 then K else K - 1 := by
  have hvalue : (Q : α) * K / 127 = K - (K * (127 - Q) : ℤ) / 127 := by
    push_cast
    ring
  have hnonneg : 0 ≤ K * (127 - Q) := mul_nonneg hpos.le (by omega)
  have h0 : (0 : α) ≤ (K * (127 - Q) : ℤ) := by exact_mod_cast hnonneg
  rw [hvalue]
  split
  · next hhalf =>
    have : ((K * (127 - Q) : ℤ) : α) ≤ 63 := by exact_mod_cast (by omega : K * (127 - Q) ≤ 63)
    refine roundEven_eq ?_ ?_ <;> linarith
  · next hhalf =>
    have h1 : (64 : α) ≤ (K * (127 - Q) : ℤ) := by exact_mod_cast (by omega : 64 ≤ K * (127 - Q))
    have h2 : ((K * (127 - Q) : ℤ) : α) ≤ 126 := by exact_mod_cast (by omega : K * (127 - Q) ≤ 126)
    refine roundEven_eq ?_ ?_ <;> push_cast at h1 h2 ⊢ <;> linarith

/-- The code of the largest value of a column at the scale of the column. -/
def topCode (m : α) : ℤ := roundEven (m / round16 (m / 127))

/-- From `2 ^ (-13)` on the scale is so near to `m / 127` that the code is 127. -/
theorem topCode_ge_of_large {m : α} (h : (2 : α) ^ (-13 : ℤ) ≤ m / 127) : 127 ≤ topCode m := by
  have hpos : 0 < m / 127 := lt_of_lt_of_le (by positivity) h
  have hnear := abs_sub_round16_le_of_le (x := m / 127) (by rwa [abs_of_pos hpos])
  rw [abs_of_pos hpos, abs_le] at hnear
  norm_num at hnear
  have hscale : 0 < round16 (m / 127) := by linarith [hnear.2]
  refine le_roundEven ?_
  rw [lt_div_iff₀ hscale]
  push_cast
  linarith [hnear.1]

/-- The largest value of a column of a positive scale has a code of at least 63, and what the scale becomes depends on how much the
code misses of 127. -/
theorem rescale {m : α} (hm : 0 < m) (hscale : 0 < round16 (m / 127)) :
    63 ≤ topCode m ∧
      (2 * (round16 (m / 127) * 2 ^ 24) * (127 - topCode m) < 127 →
        round16 ((min (topCode m) 127 : ℤ) * round16 (m / 127) / 127) = round16 (m / 127)) ∧
      (¬ 2 * (round16 (m / 127) * 2 ^ 24) * (127 - topCode m) < 127 →
        topCode m < 127 ∧ 127 * round16 (topCode m * round16 (m / 127) / 127) < topCode m * round16 (m / 127)) := by
  rcases le_or_gt 127 (topCode m) with hfull | hlt
  · have hQ : (127 : α) ≤ topCode m := by exact_mod_cast hfull
    refine ⟨by omega, fun _ => ?_, fun hnot => absurd ?_ hnot⟩
    · rw [min_eq_right hfull]
      push_cast
      rw [mul_div_cancel_left₀ _ (by norm_num), round16_round16]
    · have : 2 * (round16 (m / 127) * 2 ^ 24) * (127 - (topCode m : α)) ≤ 0 :=
        mul_nonpos_of_nonneg_of_nonpos (by positivity) (by linarith)
      linarith
  · have hsmall : m / 127 < 2 ^ (-13 : ℤ) := by
      by_contra hlarge
      exact absurd (topCode_ge_of_large (not_lt.1 hlarge)) (not_le.2 hlt)
    have hx : 0 < m / 127 := by positivity
    have hsteps : round16 (m / 127) = roundEven (m / 127 * 2 ^ 24) * 2 ^ (-24 : ℤ) := round16_of_lt (by rwa [abs_of_pos hx])
    generalize hK : roundEven (m / 127 * 2 ^ 24) = K at hsteps
    have hu : (0 : α) < 2 ^ (-24 : ℤ) := by positivity
    have hunit : (2 : α) ^ (-24 : ℤ) * 2 ^ 24 = 1 := by norm_num
    have hKpos : 0 < K := by
      rw [hsteps] at hscale
      exact_mod_cast (mul_pos_iff_of_pos_right hu).1 hscale
    have hK0 : (0 : α) < K := by exact_mod_cast hKpos
    have hK24 : (K : α) * 2 ^ (-24 : ℤ) * 2 ^ 24 = K := by rw [mul_assoc, hunit, mul_one]
    have htop : topCode m = roundEven (127 * (m / 127 * 2 ^ 24) / (K : α)) := by
      rw [topCode, hsteps]
      congr 1
      rw [div_eq_div_iff (by positivity) hK0.ne']
      linear_combination (-m * K) * hunit
    obtain ⟨h63, hmiss⟩ := code_bounds hK.symm hKpos htop hlt
    have hcond : 2 * (round16 (m / 127) * 2 ^ 24) * (127 - (topCode m : α)) = (2 * (K * (127 - topCode m)) : ℤ) := by
      rw [hsteps, hK24]
      push_cast
      ring
    -- the second scale is rounded on the finest grid too
    have hle : round16 (m / 127) ≤ 2 ^ (-13 : ℤ) := by
      have hgrid : Grid ((2 : α) ^ (-13 : ℤ)) := ⟨1, -13, by norm_num, by norm_num, by simp⟩
      calc round16 (m / 127) ≤ round16 (2 ^ (-13 : ℤ)) := round16_mono hsmall.le
        _ = 2 ^ (-13 : ℤ) := round16_of_grid hgrid
    have hQ : (0 : α) < topCode m ∧ (topCode m : α) < 127 :=
      ⟨by exact_mod_cast (by omega : 0 < topCode m), by exact_mod_cast hlt⟩
    have hsecond : round16 (topCode m * round16 (m / 127) / 127) =
        (if 2 * (K * (127 - topCode m)) < 127 then K else K - 1 : ℤ) * 2 ^ (-24 : ℤ) := by
      have hbelow : (topCode m : α) * round16 (m / 127) / 127 < 2 ^ (-13 : ℤ) := by
        rw [div_lt_iff₀ (by norm_num)]
        calc (topCode m : α) * round16 (m / 127) < 127 * round16 (m / 127) := mul_lt_mul_of_pos_right hQ.2 hscale
          _ ≤ 127 * 2 ^ (-13 : ℤ) := mul_le_mul_of_nonneg_left hle (by norm_num)
          _ = 2 ^ (-13 : ℤ) * 127 := mul_comm _ _
      have habove : 0 ≤ (topCode m : α) * round16 (m / 127) / 127 := div_nonneg (mul_nonneg hQ.1.le hscale.le) (by norm_num)
      rw [round16_of_lt (by rwa [abs_of_nonneg habove]), ← second_scale (α := α) hKpos hlt.le hmiss, hsteps]
      congr 3
      linear_combination (topCode m * K / 127 : α) * hunit
    rw [hcond]
    refine ⟨h63, fun h => ?_, fun h => ⟨hlt, ?_⟩⟩
    · have hint : 2 * (K * (127 - topCode m)) < 127 := by exact_mod_cast h
      rw [min_eq_left hlt.le, hsecond, if_pos hint, hsteps]
    · have hint : ¬ 2 * (K * (127 - topCode m)) < 127 := fun hi => h (by exact_mod_cast hi)
      rw [hsecond, if_neg hint, hsteps, ← mul_assoc, ← mul_assoc]
      refine mul_lt_mul_of_pos_right ?_ hu
      have : 127 * (K - 1) < topCode m * K := by linarith [hmiss, mul_comm K (127 - topCode m), sub_mul 127 (topCode m) K]
      exact_mod_cast this

/-! ## One column -/

/-- A number of the column at its scale, as it is read back. -/
def stored (nanCode : ℤ) (scale v : Extended α) : Extended α := Extended.mul (.finite (int8Code nanCode v scale : ℤ)) scale

/-- What the cast makes of a column. -/
def castColumn (nanCode : ℤ) (column : List (Extended α)) : List (Extended α) := column.map (stored nanCode (columnScale column))

/-- **The condition on the largest value of a column.** Its scale does not overflow, and is less than 127 halves of a step when
multiplied by what the code of the largest value misses of 127, in steps of the finest grid. -/
def ColumnKept (m : α) : Prop := m < 127 * 65520 ∧ 2 * (round16 (m / 127) * 2 ^ 24) * (127 - topCode m) < 127

instance (m : α) : Decidable (ColumnKept m) := inferInstanceAs (Decidable (_ ∧ _))

variable {nanCode : ℤ} {xs : List α}

/-- The largest of finite values is finite. -/
theorem maxAbs_finite (xs : List α) : Extended.maxAbs (xs.map .finite) = .finite (maxAbs xs) := by
  induction xs with
  | nil => rfl
  | cons x xs ih =>
    rw [List.map_cons, Extended.maxAbs, List.foldr_cons, ← Extended.maxAbs, ih]
    rfl

/-- One is a half-precision number. -/
theorem halfRound_one : halfRound (.finite (1 : α)) = .finite 1 := by
  have hgrid : Grid (1 : α) := ⟨1, 0, by norm_num, by norm_num, by norm_num⟩
  rw [halfRound, if_neg (by norm_num), round16_of_grid hgrid]

/-- Rounding twice is rounding once. -/
theorem halfRound_halfRound (v : Extended α) : halfRound (halfRound v) = halfRound v := by
  cases v with
  | finite x =>
    rw [halfRound]
    split
    · rfl
    · next h =>
      have := abs_round16_le (not_le.1 h)
      rw [halfRound, if_neg (by linarith), round16_round16]
  | infinite n => rfl
  | nan => rfl

/-- The scale of a column of numbers. -/
theorem columnScale_finite (xs : List α) :
    columnScale (xs.map .finite) = if 0 < maxAbs xs then halfRound (.finite (maxAbs xs / 127)) else .finite 1 := by
  unfold columnScale
  rw [maxAbs_finite]
  simp only [Extended.positive, Extended.div, decide_eq_true_eq]
  split
  · rw [if_pos (by norm_num)]
  · exact halfRound_one

/-- A finite value is stored as its clipped code times the scale. -/
theorem stored_finite {r : α} (hr : r ≠ 0) (v : α) :
    stored nanCode (.finite r) (.finite v) = .finite ((max (-127) (min (roundEven (v / r)) 127) : ℤ) * r) := by
  unfold stored int8Code
  simp only [Extended.div, if_pos hr, Extended.mul]

/-- A scale that has been rounded to zero makes every value zero. -/
theorem stored_zero (v : Extended α) : stored nanCode (.finite 0) v = .finite 0 := by
  unfold stored
  simp only [Extended.mul, mul_zero]

theorem stored_one_zero : stored nanCode (.finite 1) (.finite (0 : α)) = .finite 0 := by
  rw [stored_finite one_ne_zero, zero_div, roundEven_zero]
  norm_num

/-- A column of zeros is cast to zeros. -/
theorem castColumn_zeros (xs : List α) : castColumn nanCode (xs.map fun _ => .finite (0 : α)) = xs.map fun _ => .finite 0 := by
  have hmax : maxAbs (xs.map fun _ => (0 : α)) = 0 := by
    induction xs with
    | nil => rfl
    | cons x xs ih => rw [List.map_cons, maxAbs, List.foldr_cons, ← maxAbs, ih, abs_zero, max_self]
  have hscale : columnScale (xs.map fun _ => .finite (0 : α)) = .finite 1 := by
    have := columnScale_finite (xs.map fun _ => (0 : α))
    rwa [List.map_map, hmax, if_neg (lt_irrefl _)] at this
  rw [castColumn, hscale, List.map_map]
  exact List.map_congr_left fun _ _ => stored_one_zero

/-- An infinite scale makes every number none, and the second scale 1 leaves a number. -/
theorem castColumn_overflow (hxs : xs ≠ []) (h : columnScale (xs.map .finite) = .infinite false) :
    castColumn nanCode (castColumn nanCode (xs.map .finite)) ≠ castColumn nanCode (xs.map .finite) := by
  have hfirst : castColumn nanCode (xs.map .finite) = xs.map fun _ => (.nan : Extended α) := by
    rw [castColumn, h, List.map_map]
    refine List.map_congr_left fun x _ => ?_
    simp [stored, int8Code, Extended.div, Extended.mul]
  obtain ⟨x, rest, rfl⟩ := List.exists_cons_of_ne_nil hxs
  have hscale : columnScale ((x :: rest).map fun _ => (.nan : Extended α)) = .finite 1 := by
    unfold columnScale
    rw [List.map_cons, Extended.maxAbs, List.foldr_cons]
    exact halfRound_one
  rw [hfirst, castColumn, hscale, List.map_map]
  simp [stored, int8Code, Extended.div, Extended.mul]

/-- The code of a number at a positive scale. -/
def clippedCode (r v : α) : ℤ := max (-127) (min (roundEven (v / r)) 127)

/-- The code is odd. -/
theorem clippedCode_neg (r v : α) : clippedCode r (-v) = -clippedCode r v := by
  unfold clippedCode
  rw [neg_div, roundEven_neg]
  omega

/-- The code of a value that is not negative is clipped from above alone. -/
theorem clippedCode_of_nonneg {r v : α} (hr : 0 < r) (hv : 0 ≤ v) : clippedCode r v = min (roundEven (v / r)) 127 := by
  have : 0 ≤ roundEven (v / r) := by
    have := roundEven_mono (div_nonneg hv hr.le)
    rwa [roundEven_zero] at this
  unfold clippedCode
  omega

/-- The code's magnitude is that of the value's magnitude. -/
theorem abs_clippedCode (r v : α) (hr : 0 < r) : |clippedCode r v| = min (roundEven (|v| / r)) 127 := by
  have hnonneg : ∀ w : α, 0 ≤ w → |clippedCode r w| = min (roundEven (w / r)) 127 := by
    intro w hw
    have := roundEven_mono (div_nonneg hw hr.le)
    rw [roundEven_zero] at this
    rw [clippedCode_of_nonneg hr hw, abs_of_nonneg (by omega)]
  rcases le_total 0 v with hv | hv
  · rw [abs_of_nonneg hv]
    exact hnonneg v hv
  · rw [abs_of_nonpos hv, ← hnonneg (-v) (by linarith), clippedCode_neg, abs_neg]

/-- The largest value that is stored is the code of the largest value, times the scale. -/
theorem maxAbs_codes (hxs : xs ≠ []) {r : α} (hr : 0 < r) :
    maxAbs (xs.map fun v => (clippedCode r v : α) * r) = (min (roundEven (maxAbs xs / r)) 127 : ℤ) * r := by
  have habs : ∀ v : α, |(clippedCode r v : α) * r| = (min (roundEven (|v| / r)) 127 : ℤ) * r := by
    intro v
    rw [abs_mul, abs_of_pos hr, ← Int.cast_abs, abs_clippedCode r v hr]
  have hne : xs.map (fun v => (clippedCode r v : α) * r) ≠ [] := by simpa using hxs
  refine le_antisymm ?_ ?_
  · obtain ⟨w, hw, hmax⟩ := exists_abs_eq_maxAbs hne
    obtain ⟨v, hv, rfl⟩ := List.mem_map.1 hw
    rw [← hmax, habs]
    refine mul_le_mul_of_nonneg_right ?_ hr.le
    exact_mod_cast min_le_min_right 127 (roundEven_mono (div_le_div_of_nonneg_right (abs_le_maxAbs hv) hr.le))
  · obtain ⟨v, hv, hmax⟩ := exists_abs_eq_maxAbs hxs
    rw [← hmax, ← habs]
    exact abs_le_maxAbs (List.mem_map_of_mem hv)

/-- A column of a finite scale above zero, cast. -/
theorem castColumn_of_scale {r : α} (hr : 0 < r) {ys : List α} (h : columnScale (ys.map .finite) = .finite r) :
    castColumn nanCode (ys.map .finite) = (ys.map fun v => (clippedCode r v : α) * r).map .finite := by
  rw [castColumn, h, List.map_map, List.map_map]
  exact List.map_congr_left fun v _ => stored_finite hr.ne' v

/-- A code stands for itself. -/
theorem clippedCode_code {r : α} (hr : 0 < r) (v : α) : clippedCode r ((clippedCode r v : α) * r) = clippedCode r v := by
  rw [clippedCode, mul_div_cancel_right₀ _ hr.ne', roundEven_intCast]
  unfold clippedCode
  omega

/-- A column with a value beyond the reach of its scale is not kept by a cast. -/
theorem castColumn_ne_self {ys : List α} (hne : ys ≠ []) {r : α} (hr : 0 ≤ r) (h : columnScale (ys.map .finite) = .finite r)
    (hout : 127 * r < maxAbs ys) : castColumn nanCode (ys.map .finite) ≠ ys.map .finite := by
  intro heq
  obtain ⟨y, hy, hymax⟩ := exists_abs_eq_maxAbs hne
  have hstored : stored nanCode (.finite r) (.finite y) = .finite y := by
    rw [castColumn, h, List.map_map] at heq
    exact List.map_inj_left.1 heq y hy
  rcases hr.eq_or_lt with h0 | hpos
  · rw [← h0, stored_zero] at hstored
    obtain rfl : (0 : α) = y := Extended.finite.inj hstored
    rw [abs_zero] at hymax
    linarith
  · rw [stored_finite hpos.ne'] at hstored
    have hy' : (clippedCode r y : α) * r = y := Extended.finite.inj hstored
    have hcode : |clippedCode r y| ≤ 127 := by
      rw [abs_clippedCode _ _ hpos]
      exact min_le_right _ _
    have hreach : |y| ≤ 127 * r := by
      rw [← hy', abs_mul, abs_of_pos hpos, ← Int.cast_abs]
      exact mul_le_mul_of_nonneg_right (by exact_mod_cast hcode) hpos.le
    linarith

/-- Casting a column twice, at a scale above zero. -/
theorem castColumn_twice_iff (hxs : xs ≠ []) (hm : 0 < maxAbs xs) (hrange : maxAbs xs / 127 < 65520)
    (hscale : 0 < round16 (maxAbs xs / 127)) :
    castColumn nanCode (castColumn nanCode (xs.map .finite)) = castColumn nanCode (xs.map .finite) ↔
      2 * (round16 (maxAbs xs / 127) * 2 ^ 24) * (127 - (topCode (maxAbs xs) : α)) < 127 := by
  obtain ⟨h63, hsame, hless⟩ := rescale hm hscale
  have hquot : 0 ≤ maxAbs xs / 127 := by positivity
  have hr65504 : round16 (maxAbs xs / 127) ≤ 65504 := by
    have := abs_round16_le (x := maxAbs xs / 127) (by rwa [abs_of_nonneg hquot])
    rwa [abs_of_pos hscale] at this
  have hfirst : columnScale (xs.map .finite) = .finite (round16 (maxAbs xs / 127)) := by
    rw [columnScale_finite, if_pos hm, halfRound, if_neg (by rw [abs_of_nonneg hquot]; exact not_le.2 hrange)]
  generalize hr : round16 (maxAbs xs / 127) = r at *
  rw [castColumn_of_scale hscale hfirst]
  have hmax := maxAbs_codes hxs hscale
  rw [show roundEven (maxAbs xs / r) = topCode (maxAbs xs) by rw [topCode, hr]] at hmax
  generalize hys : (xs.map fun v => (clippedCode r v : α) * r) = ys at *
  have hQpos : (0 : α) < (min (topCode (maxAbs xs)) 127 : ℤ) := by exact_mod_cast (by omega : 0 < min (topCode (maxAbs xs)) 127)
  have hQle : ((min (topCode (maxAbs xs)) 127 : ℤ) : α) ≤ 127 := by exact_mod_cast min_le_right _ _
  have hbelow : (min (topCode (maxAbs xs)) 127 : ℤ) * r / 127 ≤ r := by
    rw [div_le_iff₀ (by norm_num), mul_comm r]
    exact mul_le_mul_of_nonneg_right hQle hscale.le
  have habove : 0 ≤ (min (topCode (maxAbs xs)) 127 : ℤ) * r / 127 := by positivity
  have hsecond : columnScale (ys.map .finite) = .finite (round16 ((min (topCode (maxAbs xs)) 127 : ℤ) * r / 127)) := by
    rw [columnScale_finite, hmax, if_pos (mul_pos hQpos hscale), halfRound, if_neg]
    rw [abs_of_nonneg habove]
    linarith
  constructor
  · intro heq
    by_contra hnot
    obtain ⟨hlt, hshrink⟩ := hless hnot
    rw [min_eq_left hlt.le] at hsecond hmax
    -- the largest value is beyond the reach of the second scale
    have hne : ys ≠ [] := by
      rw [← hys]
      simpa using hxs
    have hQr : 0 < (topCode (maxAbs xs) : α) * r := mul_pos (by exact_mod_cast (by omega : 0 < topCode (maxAbs xs))) hscale
    have hr' : 0 ≤ round16 (topCode (maxAbs xs) * r / 127) := round16_nonneg (div_nonneg hQr.le (by norm_num))
    exact castColumn_ne_self hne hr' hsecond (by rw [hmax]; linarith) heq
  · intro hcond
    rw [hsame hcond] at hsecond
    rw [castColumn_of_scale hscale hsecond]
    congr 1
    rw [← hys, List.map_map]
    refine List.map_congr_left fun v _ => ?_
    rw [Function.comp_apply, clippedCode_code hscale]

/-- **One column.** Casting a column of numbers a second time leaves it exactly if its largest value meets the condition. -/
theorem castColumn_castColumn_iff (hxs : xs ≠ []) :
    castColumn nanCode (castColumn nanCode (xs.map .finite)) = castColumn nanCode (xs.map .finite) ↔ ColumnKept (maxAbs xs) := by
  have hm0 : 0 ≤ maxAbs xs := by
    obtain ⟨v, -, hv⟩ := exists_abs_eq_maxAbs hxs
    rw [← hv]
    exact abs_nonneg v
  -- where the column is cast to zeros it stays zero
  have hzeros (h : castColumn nanCode (xs.map .finite) = xs.map fun _ => .finite (0 : α)) :
      castColumn nanCode (castColumn nanCode (xs.map .finite)) = castColumn nanCode (xs.map .finite) := by
    rw [h, castColumn_zeros]
  unfold ColumnKept
  rcases hm0.eq_or_lt with hzero | hm
  · have hall : ∀ v ∈ xs, v = 0 := fun v hv => abs_nonpos_iff.1 (hzero ▸ abs_le_maxAbs hv)
    refine iff_of_true (hzeros ?_) ?_
    · rw [castColumn, columnScale_finite, if_neg (by rw [← hzero]; exact lt_irrefl _), List.map_map]
      refine List.map_congr_left fun v hv => ?_
      rw [Function.comp_apply, hall v hv]
      exact stored_one_zero
    · rw [← hzero, zero_div, round16_zero, zero_mul, mul_zero, zero_mul]
      norm_num
  have hquot : 0 ≤ maxAbs xs / 127 := by positivity
  rcases le_or_gt 65520 (maxAbs xs / 127) with hover | hrange
  · refine iff_of_false (castColumn_overflow hxs ?_) fun h => ?_
    · rw [columnScale_finite, if_pos hm, halfRound, if_pos (by rwa [abs_of_nonneg hquot]), decide_eq_false (not_lt.2 hquot)]
    · rw [le_div_iff₀ (by norm_num)] at hover
      linarith [h.1]
  have hlt : maxAbs xs < 127 * 65520 := by
    rw [div_lt_iff₀ (by norm_num)] at hrange
    linarith
  rw [and_iff_right hlt]
  rcases (round16_nonneg hquot).eq_or_lt with hr | hr
  · refine iff_of_true (hzeros ?_) ?_
    · rw [castColumn, columnScale_finite, if_pos hm, halfRound, if_neg (by rw [abs_of_nonneg hquot]; exact not_le.2 hrange), ← hr,
        List.map_map]
      exact List.map_congr_left fun v _ => stored_zero _
    · rw [← hr, zero_mul, mul_zero, zero_mul]
      norm_num
  · exact castColumn_twice_iff hxs hm hrange hr

/-! ## The codebook -/

/-- The rows a cast leaves. -/
def castRows (nanCode : ℤ) (group : ℕ) (cb : List (List (Extended α))) : List (List (Extended α)) :=
  cb.map fun row => tabulate group fun j => stored nanCode (columnScale (columnOf cb j)) (cell row j)

/-- Quantized and dequantized, a codebook is what the cast gives. -/
theorem dequantize_quantize (nanCode : ℤ) (group : ℕ) (cb : List (List (Extended α))) :
    dequantize group (quantizeCodebookInt8 nanCode group cb).1 (quantizeCodebookInt8 nanCode group cb).2 = castRows nanCode group cb := by
  simp only [dequantize, quantizeCodebookInt8, castRows, List.map_map]
  refine List.map_congr_left fun row _ => tabulate_congr fun j hj => ?_
  rw [cell_tabulate _ hj, cell_tabulate _ hj, stored]

/-- A codebook with a row is cast row by row. -/
theorem castCodebookStorage_eq {group : ℕ} {cb : List (List (Extended α))} (hcb : cb ≠ []) :
    castCodebookStorage nanCode group cb = .ok (castRows nanCode group cb) := by
  rw [castCodebookStorage, if_neg (by simpa using hcb), ← dequantize_quantize]

/-- What is read from the file of a codebook is the codebook cast. -/
theorem read_write {group : ℕ} (hgroup : 0 < group) {cb : List (List (Extended α))} (hcb : cb ≠ []) :
    (writeCodebookInt8 nanCode group cb).bind readCodebookInt8 = .ok (castRows nanCode group cb) := by
  have hscales : (quantizeCodebookInt8 nanCode group cb).2.map halfRound = (quantizeCodebookInt8 nanCode group cb).2 := by
    rw [quantizeCodebookInt8, tabulate, List.map_map]
    exact List.map_congr_left fun j _ => halfRound_halfRound _
  have hlength : (quantizeCodebookInt8 nanCode group cb).2.length = group := length_tabulate _ _
  have hrows : ∀ row ∈ (quantizeCodebookInt8 nanCode group cb).1, row.length = group := by
    intro row hrow
    obtain ⟨-, -, rfl⟩ := List.mem_map.1 hrow
    exact length_tabulate _ _
  rw [writeCodebookInt8, if_neg (by simpa using hcb)]
  simp only [ok_bind, readCodebookInt8, hscales, hlength]
  rw [reshapeAuto_ok hgroup (length_flatten_of_width hrows), rowsOf_flatten hrows, ok_map, dequantize_quantize]

/-- The cast goes column by column. -/
theorem columnOf_castRows {group j : ℕ} (hj : j < group) (cb : List (List (Extended α))) :
    columnOf (castRows nanCode group cb) j = castColumn nanCode (columnOf cb j) := by
  rw [columnOf, castRows, List.map_map, castColumn, columnOf, List.map_map]
  exact List.map_congr_left fun row _ => cell_tabulate _ hj

/-- A cast codebook is cast to itself if each of its columns is. -/
theorem castRows_castRows_iff {group : ℕ} {cb : List (List (Extended α))} :
    castRows nanCode group (castRows nanCode group cb) = castRows nanCode group cb ↔
      ∀ j < group, castColumn nanCode (castColumn nanCode (columnOf cb j)) = castColumn nanCode (columnOf cb j) := by
  constructor
  · intro h j hj
    have := congrArg (columnOf · j) h
    simp only [columnOf_castRows hj] at this
    exact this
  · intro h
    have hcell : ∀ row ∈ castRows nanCode group cb, ∀ j < group,
        stored nanCode (columnScale (columnOf (castRows nanCode group cb) j)) (cell row j) = cell row j := by
      intro row hrow j hj
      have hcolumn := h j hj
      rw [← columnOf_castRows hj, castColumn, columnOf, List.map_map] at hcolumn
      exact List.map_inj_left.1 hcolumn row hrow
    conv_rhs => rw [← List.map_id (castRows nanCode group cb)]
    refine List.map_congr_left fun row hrow => ?_
    have hwidth : row.length = group := by
      obtain ⟨-, -, rfl⟩ := List.mem_map.1 hrow
      exact length_tabulate _ _
    rw [tabulate_congr fun j hj => hcell row hrow j hj, ← hwidth, tabulate_cell]
    rfl

/-- **Exactly when a codebook of int8 is read back.** For every codebook of numbers, what is read from the file of its cast is the
cast if and only if the largest value of every column meets the condition. -/
theorem readCodebook_cast_iff (nanCode : ℤ) {group : ℕ} (hgroup : 0 < group) {cb : List (List α)} (hcb : cb ≠ [])
    (hrows : ∀ row ∈ cb, row.length = group) :
    (∃ cast, castCodebookStorage nanCode group (cb.map (·.map .finite)) = .ok cast ∧
      (writeCodebookInt8 nanCode group cast).bind readCodebookInt8 = .ok cast) ↔
      ∀ j < group, ColumnKept (maxAbs (cb.map fun row => cell row j)) := by
  have hfinite : cb.map (·.map Extended.finite) ≠ [] := by simpa using hcb
  have hcast : castRows nanCode group (cb.map (·.map .finite)) ≠ [] := by simpa [castRows] using hcb
  have hcolumn : ∀ j < group, columnOf (cb.map (·.map .finite)) j = (cb.map fun row => cell row j).map .finite := by
    intro j hj
    rw [columnOf, List.map_map, List.map_map]
    exact List.map_congr_left fun row hrow => cell_map (by rwa [hrows row hrow])
  have hkept : castRows nanCode group (castRows nanCode group (cb.map (·.map .finite))) =
      castRows nanCode group (cb.map (·.map .finite)) ↔ ∀ j < group, ColumnKept (maxAbs (cb.map fun row => cell row j)) := by
    rw [castRows_castRows_iff]
    refine forall₂_congr fun j hj => ?_
    rw [hcolumn j hj]
    exact castColumn_castColumn_iff (by simpa using hcb)
  rw [← hkept]
  constructor
  · rintro ⟨cast, h, hread⟩
    rw [castCodebookStorage_eq hfinite] at h
    obtain rfl := Except.ok.inj h
    rw [read_write hgroup hcast] at hread
    exact Except.ok.inj hread
  · intro h
    exact ⟨_, castCodebookStorage_eq hfinite, by rw [read_write hgroup hcast, h]⟩

/-- Two columns whose largest values are 127 and 254 are read back. -/
theorem readCodebook_cast_iff_two :
    ∃ cast, castCodebookStorage 0 2 ([[127, 1 / 4], [-3, 254]].map (·.map (Extended.finite (α := ℚ)))) = .ok cast ∧
      (writeCodebookInt8 0 2 cast).bind readCodebookInt8 = .ok cast :=
  (readCodebook_cast_iff 0 (by decide) (by decide) (by decide)).2 (by decide +kernel)

/-- A column of one number, 381 halves of the least binary16: the cast has scale two and code 95, and the file scale one and
code 127. -/
theorem codebook_of_one_not_read_back :
    castCodebookStorage 0 1 [[Extended.finite (381 / 2 ^ 25 : ℚ)]] = .ok [[.finite (190 / 2 ^ 24)]] ∧
      (writeCodebookInt8 0 1 [[Extended.finite (190 / 2 ^ 24 : ℚ)]]).bind readCodebookInt8 = .ok [[.finite (127 / 2 ^ 24)]] ∧
      [[Extended.finite (127 / 2 ^ 24 : ℚ)]] ≠ [[.finite (190 / 2 ^ 24)]] := by
  decide +kernel

end Orka

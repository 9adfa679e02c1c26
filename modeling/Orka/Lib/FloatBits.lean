import Mathlib
import Orka.Lib.Numerals

/-!
# Patterns of floats

Numbers of 32 and of 16 bits as the patterns they are stored in: a sign, an exponent and a significand. A pattern without its sign
grows with the number it stands for, infinity above every number, and what is not a number above infinity.
-/

namespace FloatBits

/-- The quotient, rounded to the nearest natural number; a tie goes to the even one. -/
def divEven (n d : ℕ) : ℕ :=
  if 2 * (n % d) < d then n / d else if d < 2 * (n % d) then n / d + 1 else n / d + n / d % 2

/-- A 32-bit pattern without its sign. -/
def magnitude (x : ℕ) : ℕ := x % 2 ^ 31

/-- Infinity. -/
def infinity : ℕ := 0x7F800000

/-- The largest number of 16 bits, 65504. -/
def halfMax : ℕ := 0x477FE000

/-- The 16-bit pattern nearest to a 32-bit pattern, both without sign. -/
def narrow (x : ℕ) : ℕ :=
  if infinity < x then max 0x7C01 (0x7C00 + x % 2 ^ 23 / 2 ^ 13)
  else min 0x7C00 <|
    if 113 ≤ x / 2 ^ 23 then divEven (x - 112 * 2 ^ 23) (2 ^ 13)
    else if x / 2 ^ 23 = 0 then 0
    else divEven (2 ^ 23 + x % 2 ^ 23) (2 ^ (126 - x / 2 ^ 23))

/-- The 32-bit pattern of a 16-bit pattern, both without sign. -/
def widen (h : ℕ) : ℕ :=
  if h = 0 then 0
  else if h < 2 ^ 10 then (h.log2 + 103) * 2 ^ 23 + (h - 2 ^ h.log2) * 2 ^ (23 - h.log2)
  else if h < 0x7C00 then h * 2 ^ 13 + 112 * 2 ^ 23
  else infinity + (h - 0x7C00) * 2 ^ 13

/-- `x` as a number of 16 bits. -/
def toHalf (x : ℕ) : ℕ := x / 2 ^ 31 * 2 ^ 15 + narrow (magnitude x)

/-- A number of 16 bits as one of 32. -/
def ofHalf (h : ℕ) : ℕ := h / 2 ^ 15 * 2 ^ 31 + widen (h % 2 ^ 15)

/-! ## Rounded quotients -/

/-- A whole quotient is not rounded. -/
theorem divEven_mul (n : ℕ) {d : ℕ} (hd : 0 < d) : divEven (n * d) d = n := by
  unfold divEven
  rw [Nat.mul_mod_left, if_pos (by omega), Nat.mul_div_cancel _ hd]

/-- A bound that is a multiple bounds the rounded quotient. -/
theorem divEven_le {n d k : ℕ} (hd : 0 < d) (h : n ≤ k * d) : divEven n d ≤ k := by
  have hdiv : n / d ≤ k := Nat.div_le_of_le_mul (by rwa [Nat.mul_comm])
  rcases hdiv.lt_or_eq with hlt | heq
  · unfold divEven
    split
    · exact hdiv
    split
    · omega
    · omega
  · -- then `n` is the bound itself
    have hn : n = k * d := le_antisymm h (by rw [← heq]; exact Nat.div_mul_le_self n d)
    rw [hn, divEven_mul k hd]

/-! ## Widening and narrowing -/

/-- Within the half range a value is narrowed by its exponent. -/
theorem narrow_of_le {x : ℕ} (h : x ≤ halfMax) :
    narrow x = if 113 ≤ x / 2 ^ 23 then divEven (x - 112 * 2 ^ 23) (2 ^ 13)
      else if x / 2 ^ 23 = 0 then 0
      else divEven (2 ^ 23 + x % 2 ^ 23) (2 ^ (126 - x / 2 ^ 23)) := by
  unfold narrow
  unfold halfMax at h
  rw [if_neg (by unfold infinity; omega), min_eq_right]
  split
  · exact divEven_le (by decide) (by omega)
  split
  · exact Nat.zero_le _
  · next h1 h2 =>
    refine le_trans (divEven_le (k := 2 ^ 11) (by positivity) ?_) (by decide)
    have hpow : 2 ^ 13 ≤ 2 ^ (126 - x / 2 ^ 23) := Nat.pow_le_pow_right (by decide) (by omega)
    calc 2 ^ 23 + x % 2 ^ 23 ≤ 2 ^ 11 * 2 ^ 13 := by omega
      _ ≤ 2 ^ 11 * 2 ^ (126 - x / 2 ^ 23) := Nat.mul_le_mul_left _ hpow

/-- A pattern up to 65504 narrows to one of a number. -/
theorem narrow_lt {x : ℕ} (h : x ≤ halfMax) : narrow x < 0x7C00 := by
  rw [narrow_of_le h]
  unfold halfMax at h
  split
  · have : divEven (x - 112 * 2 ^ 23) (2 ^ 13) ≤ 0x7BFF := divEven_le (by decide) (by omega)
    omega
  split
  · decide
  · next h1 h2 =>
    have hpow : 2 ^ 13 ≤ 2 ^ (126 - x / 2 ^ 23) := Nat.pow_le_pow_right (by decide) (by omega)
    have : divEven (2 ^ 23 + x % 2 ^ 23) (2 ^ (126 - x / 2 ^ 23)) ≤ 2 ^ 11 := by
      refine divEven_le (by positivity) ?_
      calc 2 ^ 23 + x % 2 ^ 23 ≤ 2 ^ 11 * 2 ^ 13 := by omega
        _ ≤ 2 ^ 11 * 2 ^ (126 - x / 2 ^ 23) := Nat.mul_le_mul_left _ hpow
    omega

/-- A subnormal number of 16 bits, as a number of 32 bits: its exponent, and its significand with the leading one. -/
theorem widen_subnormal {h : ℕ} (h0 : h ≠ 0) (hlt : h < 2 ^ 10) :
    widen h / 2 ^ 23 = h.log2 + 103 ∧ 2 ^ 23 + widen h % 2 ^ 23 = h * 2 ^ (23 - h.log2) ∧ h.log2 ≤ 9 := by
  have hlog : h.log2 < 10 := (Nat.log2_lt h0).2 hlt
  have hlow : 2 ^ h.log2 ≤ h := Nat.log2_self_le h0
  have hhigh : h < 2 ^ (h.log2 + 1) := Nat.lt_log2_self
  have hsplit : 2 ^ h.log2 * 2 ^ (23 - h.log2) = 2 ^ 23 := by rw [← pow_add]; congr 1; omega
  have hrest : (h - 2 ^ h.log2) * 2 ^ (23 - h.log2) < 2 ^ 23 := by
    rw [← hsplit]
    refine Nat.mul_lt_mul_of_pos_right ?_ (by positivity)
    rw [pow_succ] at hhigh
    omega
  have hwiden : widen h = (h.log2 + 103) * 2 ^ 23 + (h - 2 ^ h.log2) * 2 ^ (23 - h.log2) := by
    unfold widen
    rw [if_neg h0, if_pos hlt]
  have hsum : 2 ^ 23 + (h - 2 ^ h.log2) * 2 ^ (23 - h.log2) = h * 2 ^ (23 - h.log2) := by
    rw [← hsplit, ← Nat.add_mul, Nat.add_sub_cancel' hlow]
  rw [hwiden]
  refine ⟨?_, ?_, by omega⟩
  · omega
  · omega

/-- A number of 16 bits is at most 65504. -/
theorem widen_le {h : ℕ} (hlt : h < 0x7C00) : widen h ≤ halfMax := by
  unfold halfMax
  by_cases h0 : h = 0
  · rw [h0]
    decide
  by_cases hsub : h < 2 ^ 10
  · obtain ⟨hexp, -, hlog⟩ := widen_subnormal h0 hsub
    omega
  · unfold widen
    rw [if_neg h0, if_neg hsub, if_pos hlt]
    omega

/-- Narrowing gives a widened number back. -/
theorem narrow_widen {h : ℕ} (hlt : h < 0x7C00) : narrow (widen h) = h := by
  rw [narrow_of_le (widen_le hlt)]
  by_cases h0 : h = 0
  · rw [h0]
    decide
  by_cases hsub : h < 2 ^ 10
  · obtain ⟨hexp, hsig, hlog⟩ := widen_subnormal h0 hsub
    rw [hexp, if_neg (by omega), if_neg (by omega), hsig, show 126 - (h.log2 + 103) = 23 - h.log2 by omega]
    exact divEven_mul h (by positivity)
  · have hwiden : widen h = h * 2 ^ 13 + 112 * 2 ^ 23 := by
      unfold widen
      rw [if_neg h0, if_neg hsub, if_pos hlt]
    rw [hwiden, if_pos (by omega), Nat.add_sub_cancel]
    exact divEven_mul h (by decide)

/-! ## Numbers with a sign -/

/-- Widening a finite half keeps the sign apart from the magnitude. -/
theorem magnitude_ofHalf {h : ℕ} (hlt : h % 2 ^ 15 < 0x7C00) : magnitude (ofHalf h) = widen (h % 2 ^ 15) := by
  have := widen_le hlt
  unfold halfMax at this
  unfold magnitude ofHalf
  omega

/-- Narrowing keeps the sign apart from the magnitude. -/
theorem toHalf_mod (x : ℕ) (h : magnitude x ≤ halfMax) : toHalf x % 2 ^ 15 = narrow (magnitude x) := by
  have := narrow_lt h
  unfold toHalf
  omega

/-- A number of 16 bits is left as it is by rounding it again. -/
theorem toHalf_ofHalf {h : ℕ} (hlt : h % 2 ^ 15 < 0x7C00) : toHalf (ofHalf h) = h := by
  unfold toHalf
  rw [magnitude_ofHalf hlt, narrow_widen hlt]
  have hle := widen_le hlt
  unfold halfMax at hle
  unfold ofHalf
  omega

/-- A half takes sixteen bits. -/
theorem toHalf_lt {x : ℕ} (hx : x < 2 ^ 32) (h : magnitude x ≤ halfMax) : toHalf x < 2 ^ 16 := by
  have := narrow_lt h
  unfold toHalf
  omega

/-- A widened half takes thirty-two bits. -/
theorem ofHalf_lt {h : ℕ} (hh : h < 2 ^ 16) (hlt : h % 2 ^ 15 < 0x7C00) : ofHalf h < 2 ^ 32 := by
  have hle := widen_le hlt
  unfold halfMax at hle
  unfold ofHalf
  omega

end FloatBits

import Mathlib
import Orka.Lib.Numerals

/-!
# Range coding with a stack of digits

An asymmetric numeral coder keeps one number. Pushing a symbol multiplies the number by about the total of the table over the
symbol's share of it, and popping undoes that. The number is kept in one interval by moving its low digits to a stack. This
file says why the decoder takes a digit back at exactly the symbols where the encoder moved one out: the interval is one digit
wide, so a popped number lies under it exactly if a digit is missing.
-/

namespace Rans

/-- The numbers of a coder: the total `M` of its table, the base `B` of its digits, and the lower end of the interval of the
state as the multiple `K` of the total. -/
structure Coder where
  M : ℤ
  B : ℤ
  K : ℤ
  M_pos : 0 < M
  K_pos : 0 < K
  M_le_B : M ≤ B

/-- One symbol's part of a table: `f` slots from slot `c` on. -/
structure Share (r : Coder) where
  f : ℤ
  c : ℤ
  f_pos : 0 < f
  c_nonneg : 0 ≤ c
  fits : c + f ≤ r.M

variable {r : Coder}

/-- The lower end of the interval of the state. -/
def Coder.lower (r : Coder) : ℤ := r.K * r.M

/-- The state between two symbols. -/
def Coder.Normal (r : Coder) (x : ℤ) : Prop := r.lower ≤ x ∧ x < r.lower * r.B

/-- The state at and above which a digit leaves before the symbol is pushed. -/
def Share.bound (s : Share r) : ℤ := r.K * r.B * s.f

def Share.push (s : Share r) (x : ℤ) : ℤ := x / s.f * r.M + x % s.f + s.c

def Share.pop (s : Share r) (x : ℤ) : ℤ := s.f * (x / r.M) + x % r.M - s.c

/-- What is left of a state when a digit too many has been moved out of it. -/
def Share.shed (s : Share r) (x : ℤ) : ℤ := if x < s.bound then x else x / r.B

theorem Coder.lower_pos (r : Coder) : 0 < r.lower := mul_pos r.K_pos r.M_pos

theorem Coder.B_pos (r : Coder) : 0 < r.B := lt_of_lt_of_le r.M_pos r.M_le_B

theorem Coder.normal_lower (r : Coder) (h : 1 < r.B) : r.Normal r.lower :=
  ⟨le_refl _, lt_mul_of_one_lt_right r.lower_pos h⟩

/-! ## Pushing and popping -/

/-- The slot of the table a pushed state shows. -/
theorem Share.push_mod (s : Share r) (x : ℤ) : s.push x % r.M = x % s.f + s.c := by
  have h0 := Int.emod_nonneg x s.f_pos.ne'
  have h1 := Int.emod_lt_of_pos x s.f_pos
  have hc := s.c_nonneg
  have hf := s.fits
  rw [Share.push, show x / s.f * r.M + x % s.f + s.c = (x % s.f + s.c) + r.M * (x / s.f) by ring, Int.add_mul_emod_self_left]
  exact Int.emod_eq_of_lt (by omega) (by omega)

/-- What a push adds on top is the quotient by the share. -/
theorem Share.push_div (s : Share r) (x : ℤ) : s.push x / r.M = x / s.f := by
  have h0 := Int.emod_nonneg x s.f_pos.ne'
  have h1 := Int.emod_lt_of_pos x s.f_pos
  have hc := s.c_nonneg
  have hf := s.fits
  rw [Share.push, show x / s.f * r.M + x % s.f + s.c = (x % s.f + s.c) + r.M * (x / s.f) by ring,
    Int.add_mul_ediv_left _ _ r.M_pos.ne', Int.ediv_eq_zero_of_lt (by omega) (by omega), zero_add]

/-- The slot shown lies in the symbol's share. -/
theorem Share.push_slot (s : Share r) (x : ℤ) : s.c ≤ s.push x % r.M ∧ s.push x % r.M < s.c + s.f := by
  have h0 := Int.emod_nonneg x s.f_pos.ne'
  have h1 := Int.emod_lt_of_pos x s.f_pos
  rw [s.push_mod]
  omega

/-- Popping undoes pushing. -/
theorem Share.pop_push (s : Share r) (x : ℤ) : s.pop (s.push x) = x := by
  rw [Share.pop, s.push_mod, s.push_div]
  have := Int.mul_ediv_add_emod x s.f
  omega

/-- A state that has shed its digit is pushed into the interval. -/
theorem Share.normal_push (s : Share r) {x : ℤ} (hl : r.K * s.f ≤ x) (hu : x < s.bound) : r.Normal (s.push x) := by
  have h0 := Int.emod_nonneg x s.f_pos.ne'
  have h1 := Int.emod_lt_of_pos x s.f_pos
  have hc := s.c_nonneg
  have hf := s.fits
  have hM := r.M_pos
  have hlow : r.K ≤ x / s.f := by
    rw [Int.le_ediv_iff_mul_le s.f_pos]
    exact hl
  have hup : x / s.f + 1 ≤ r.K * r.B := by
    have : x / s.f < r.K * r.B := Int.ediv_lt_of_lt_mul s.f_pos hu
    omega
  constructor
  · have : r.K * r.M ≤ x / s.f * r.M := mul_le_mul_of_nonneg_right hlow hM.le
    rw [Coder.lower, Share.push]
    omega
  · have : (x / s.f + 1) * r.M ≤ r.K * r.B * r.M := mul_le_mul_of_nonneg_right hup hM.le
    have e : r.lower * r.B = r.K * r.B * r.M := by
      rw [Coder.lower]
      ring
    rw [add_mul, one_mul] at this
    rw [e, Share.push]
    omega

/-! ## Shedding a digit -/

/-- One digit at most is too many: a shed state is below the bound, and not far below it. -/
theorem Share.shed_bounds (s : Share r) {x : ℤ} (h : r.Normal x) : r.K * s.f ≤ s.shed x ∧ s.shed x < s.bound := by
  have hB := r.B_pos
  unfold Share.shed
  split
  · rename_i hx
    have hfM : s.f ≤ r.M := by
      have := s.fits
      have := s.c_nonneg
      omega
    exact ⟨(mul_le_mul_of_nonneg_left hfM r.K_pos.le).trans h.1, hx⟩
  · rename_i hx
    have hx : r.K * r.B * s.f ≤ x := not_lt.1 hx
    constructor
    · rw [Int.le_ediv_iff_mul_le hB]
      calc r.K * s.f * r.B = r.K * r.B * s.f := by ring
        _ ≤ x := hx
    · have h1 : x / r.B < r.lower := Int.ediv_lt_of_lt_mul hB h.2
      have h2 : r.M ≤ r.B * s.f := by
        have := r.M_le_B
        have := s.f_pos
        nlinarith
      calc x / r.B < r.K * r.M := h1
        _ ≤ r.K * (r.B * s.f) := mul_le_mul_of_nonneg_left h2 r.K_pos.le
        _ = s.bound := by rw [Share.bound, mul_assoc]

/-- A state keeps its digit exactly if what is shed is still in the interval. -/
theorem Share.shed_lt_lower_iff (s : Share r) {x : ℤ} (h : r.Normal x) : s.shed x < r.lower ↔ s.bound ≤ x := by
  unfold Share.shed
  split
  · rename_i hx
    exact ⟨fun h' => absurd h.1 (not_le.2 h'), fun h' => absurd hx (not_lt.2 h')⟩
  · rename_i hx
    exact ⟨fun _ => not_lt.1 hx, fun _ => Int.ediv_lt_of_lt_mul r.B_pos h.2⟩

/-- The state after a symbol is in the interval. -/
theorem Share.normal_push_shed (s : Share r) {x : ℤ} (h : r.Normal x) : r.Normal (s.push (s.shed x)) :=
  s.normal_push (s.shed_bounds h).1 (s.shed_bounds h).2

/-- A popped state under the interval is the old state without its low digit. -/
theorem Share.refill (s : Share r) {x : ℤ} (h : r.Normal x) (hlt : s.shed x < r.lower) : s.shed x * r.B + x % r.B = x := by
  have hb := (s.shed_lt_lower_iff h).1 hlt
  rw [Share.shed, if_neg (not_lt.2 hb), mul_comm]
  exact Int.mul_ediv_add_emod x r.B

/-- A popped state in the interval is the old state. -/
theorem Share.keep (s : Share r) {x : ℤ} (h : r.Normal x) (hge : ¬ s.shed x < r.lower) : s.shed x = x := by
  have hb := mt (s.shed_lt_lower_iff h).2 hge
  rw [Share.shed, if_pos (not_le.1 hb)]

end Rans

import Orka.Lib.Binary16

/-!
# Nearest points with an even sum

The vector of the nearest integers is the nearest integer vector. Among those of even sum it is nearest where its own sum is even;
where the sum is odd, every vector of even sum differs from it in some coordinate, and moving the coordinate that was rounded by
most, to the other side, costs no more than any such difference.
-/

namespace Lattice

open Binary16

set_option linter.unusedSectionVars false

section Rounding

variable {α : Type} [Field α] [LinearOrder α] [IsStrictOrderedRing α]

/-- Another integer is at least one away from the one rounded to. -/
theorem one_sub_le_of_ne {x : α} {f z : ℤ} (h : z ≠ f) : 1 - |x - f| ≤ |x - z| := by
  have hone : (1 : α) ≤ |(f : α) - z| := by
    rw [← Int.cast_sub, ← Int.cast_abs]
    exact_mod_cast Int.one_le_abs (sub_ne_zero.2 h.symm)
  have htriangle := abs_sub_le (f : α) x z
  rw [abs_sub_comm (f : α) x] at htriangle
  linarith

/-- An integer within a half is nearest. -/
theorem abs_sub_le_of_half {x : α} {f : ℤ} (hhalf : |x - f| ≤ 1 / 2) (z : ℤ) : |x - f| ≤ |x - z| := by
  by_cases h : z = f
  · rw [h]
  · have hfar := one_sub_le_of_ne (x := x) h
    linarith

/-- Rounding moves a number by a half at most. -/
theorem abs_sub_roundEven_le [FloorRing α] (x : α) : |x - roundEven x| ≤ 1 / 2 := by
  have h1 := Int.floor_le x
  have h2 := Int.lt_floor_add_one x
  unfold roundEven
  rw [abs_le]
  split_ifs <;> push_cast <;> constructor <;> linarith

end Rounding

variable {α ι : Type} [Field α] [LinearOrder α] [Fintype ι]

/-- The squared distance of two vectors. -/
def sqDist (x y : ι → α) : α := ∑ i, (x i - y i) ^ 2

/-- An integer vector as a vector of numbers. -/
def ofInt (z : ι → ℤ) : ι → α := fun i => z i

variable [DecidableEq ι] [IsStrictOrderedRing α]

/-- The coordinate `j` of an integer vector moved by one towards `x`. -/
def moveToward (x : ι → α) (f : ι → ℤ) (j : ι) : ι → ℤ := Function.update f j (f j + if 0 ≤ x j - f j then 1 else -1)

/-- Moving one coordinate changes the parity of the sum. -/
theorem sum_moveToward (x : ι → α) (f : ι → ℤ) (j : ι) : Even (∑ i, moveToward x f j i) ↔ ¬ Even (∑ i, f i) := by
  rw [moveToward, Finset.sum_update_of_mem (Finset.mem_univ j), ← Finset.add_sum_erase _ f (Finset.mem_univ j),
    Finset.sdiff_singleton_eq_erase]
  split <;> grind [Int.even_add, Int.even_add_one]

/-- Moving a coordinate towards `x` exchanges its distance from `x` for one minus it. -/
theorem sqDist_moveToward (x : ι → α) (f : ι → ℤ) (j : ι) :
    sqDist x (ofInt (moveToward x f j)) = sqDist x (ofInt f) - |x j - f j| ^ 2 + (1 - |x j - f j|) ^ 2 := by
  have hrest : ∑ i ∈ Finset.univ.erase j, (x i - ofInt (moveToward x f j) i) ^ 2 =
      ∑ i ∈ Finset.univ.erase j, (x i - ofInt f i) ^ 2 := by
    refine Finset.sum_congr rfl fun i hi => ?_
    rw [ofInt, moveToward, Function.update_of_ne (Finset.ne_of_mem_erase hi), ofInt]
  have hmoved : (x j - ofInt (moveToward x f j) j) ^ 2 = (1 - |x j - f j|) ^ 2 := by
    rw [ofInt, moveToward, Function.update_self]
    split
    · next h =>
      rw [abs_of_nonneg h]
      push_cast
      ring
    · next h =>
      rw [abs_of_neg (not_le.1 h)]
      push_cast
      ring
  rw [sqDist, sqDist, ← Finset.add_sum_erase _ _ (Finset.mem_univ j), hrest, hmoved, ← Finset.add_sum_erase _ _ (Finset.mem_univ j),
    sq_abs, ofInt]
  ring

/-- Coordinates within a half each make the vector nearest. -/
theorem sqDist_le_of_half {x : ι → α} {f : ι → ℤ} (hhalf : ∀ i, |x i - f i| ≤ 1 / 2) (g : ι → ℤ) :
    sqDist x (ofInt f) ≤ sqDist x (ofInt g) :=
  Finset.sum_le_sum fun i _ => sq_le_sq.2 (abs_sub_le_of_half (hhalf i) (g i))

/-- Where the nearest integer vector has an odd sum, moving the coordinate rounded by most gives the nearest one of even sum. -/
theorem sqDist_moveToward_le {x : ι → α} {f g : ι → ℤ} {j : ι} (hhalf : ∀ i, |x i - f i| ≤ 1 / 2)
    (hmost : ∀ i, |x i - f i| ≤ |x j - f j|) (hodd : ¬ Even (∑ i, f i)) (heven : Even (∑ i, g i)) :
    sqDist x (ofInt (moveToward x f j)) ≤ sqDist x (ofInt g) := by
  obtain ⟨k, hk⟩ : ∃ k, g k ≠ f k := by
    by_contra hsame
    push Not at hsame
    exact hodd (by rwa [Finset.sum_congr rfl fun i _ => (hsame i)] at heven)
  have hothers : ∑ i ∈ Finset.univ.erase k, (x i - ofInt f i) ^ 2 ≤ ∑ i ∈ Finset.univ.erase k, (x i - ofInt g i) ^ 2 :=
    Finset.sum_le_sum fun i _ => sq_le_sq.2 (abs_sub_le_of_half (hhalf i) _)
  have hk' : (1 - |x k - f k|) ^ 2 ≤ (x k - ofInt g k) ^ 2 := by
    refine sq_le_sq.2 ?_
    rw [abs_of_nonneg (by have := hhalf k; linarith)]
    exact one_sub_le_of_ne hk
  have hf : sqDist x (ofInt f) = (x k - ofInt f k) ^ 2 + ∑ i ∈ Finset.univ.erase k, (x i - ofInt f i) ^ 2 :=
    (Finset.add_sum_erase _ _ (Finset.mem_univ k)).symm
  have hg : sqDist x (ofInt g) = (x k - ofInt g k) ^ 2 + ∑ i ∈ Finset.univ.erase k, (x i - ofInt g i) ^ 2 :=
    (Finset.add_sum_erase _ _ (Finset.mem_univ k)).symm
  have hsq : (x k - ofInt f k) ^ 2 = |x k - f k| ^ 2 := (sq_abs _).symm
  have hmostk := hmost k
  rw [sqDist_moveToward, hf, hg, hsq]
  nlinarith

end Lattice

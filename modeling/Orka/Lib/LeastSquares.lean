import Mathlib.Algebra.BigOperators.Ring.Finset
import Mathlib.Algebra.Order.BigOperators.Ring.Finset
import Mathlib.Tactic.FieldSimp
import Mathlib.Tactic.Linarith
import Mathlib.Tactic.Ring
import Orka.Lib.Numerals

/-!
# Least squares with one unknown

The weighted squared error of a multiple of one vector against another is a parabola in the factor. Its vertex is the quotient of
the correlation and the energy, and a factor that is nearer to the vertex has no more error.
-/

namespace LeastSquares

variable {ι α : Type} [Field α]

/-- The weighted squared error of `t` times `r` against `y`. -/
def sqError (I : Finset ι) (w y r : ι → α) (t : α) : α := ∑ i ∈ I, w i * (y i - t * r i) ^ 2

/-- The weighted squared length. -/
def energy (I : Finset ι) (w r : ι → α) : α := ∑ i ∈ I, w i * r i ^ 2

/-- The weighted inner product. -/
def correlation (I : Finset ι) (w y r : ι → α) : α := ∑ i ∈ I, w i * (y i * r i)

variable {I : Finset ι} {w y r : ι → α}

/-- The error is a quadratic in the scale. -/
theorem sqError_expand (t : α) :
    sqError I w y r t = energy I w y - 2 * t * correlation I w y r + t ^ 2 * energy I w r := by
  unfold sqError energy correlation
  rw [Finset.mul_sum, Finset.mul_sum, ← Finset.sum_sub_distrib, ← Finset.sum_add_distrib]
  exact Finset.sum_congr rfl fun i _ => by ring

/-- The parabola about its vertex. -/
theorem sqError_vertex (h : energy I w r ≠ 0) (t : α) :
    sqError I w y r t = sqError I w y r (correlation I w y r / energy I w r) +
      energy I w r * (t - correlation I w y r / energy I w r) ^ 2 := by
  rw [sqError_expand, sqError_expand]
  field_simp
  ring

variable [LinearOrder α] [IsStrictOrderedRing α]

/-- A factor that is nearer to the vertex has no more error. -/
theorem sqError_le_of_near (h : 0 < energy I w r) {t t' : α}
    (hnear : |t - correlation I w y r / energy I w r| ≤ |t' - correlation I w y r / energy I w r|) :
    sqError I w y r t ≤ sqError I w y r t' := by
  rw [sqError_vertex h.ne' t, sqError_vertex h.ne' t']
  have := mul_le_mul_of_nonneg_left (sq_le_sq.2 hnear) h.le
  linarith

/-- The vertex has the least error. -/
theorem sqError_vertex_le (h : 0 < energy I w r) (t : α) :
    sqError I w y r (correlation I w y r / energy I w r) ≤ sqError I w y r t := by
  refine sqError_le_of_near h ?_
  rw [sub_self, abs_zero]
  exact abs_nonneg _

end LeastSquares

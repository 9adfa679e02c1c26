import Mathlib.Algebra.Order.Field.Basic
import Orka.Lib.Numerals

/-!
# Floats with infinities

The values of a float type over the numbers it stands for: a number, an infinity of either sign, or not a number. The arithmetic of
the numbers is exact, and the sign of zero is not kept: a quotient by zero has the sign of the dividend.
-/

/-- A float. -/
inductive Extended (α : Type) where
  | finite (x : α)
  | infinite (negative : Bool)
  | nan
  deriving DecidableEq, Repr

namespace Extended

variable {α : Type}

instance [Zero α] : Zero (Extended α) := ⟨finite 0⟩

/-- The number a float stands for. -/
def number? : Extended α → Option α
  | finite x => some x
  | _ => none

section Order

variable [LinearOrder α]

/-- `x <= y`, which nothing that is not a number is part of. -/
def le : Extended α → Extended α → Bool
  | finite x, finite y => x ≤ y
  | infinite m, finite _ => m
  | finite _, infinite n => !n
  | infinite m, infinite n => m || !n
  | _, _ => false

/-- Every value but NaN is at most itself. -/
theorem le_refl {x : Extended α} (hx : x ≠ nan) : le x x = true := by
  cases x with
  | finite x => exact decide_eq_true le_rfl
  | infinite n => cases n <;> rfl
  | nan => exact absurd rfl hx

/-- The order is transitive. -/
theorem le_trans {x y z : Extended α} (hxy : le x y = true) (hyz : le y z = true) : le x z = true := by
  cases x <;> cases y <;> cases z <;> simp only [le, decide_eq_true_eq, Bool.false_eq_true] at hxy hyz ⊢
  · exact hxy.trans hyz
  · exact hyz
  all_goals grind

/-- Two numbers are comparable. -/
theorem le_of_not_le {x y : Extended α} (hx : x ≠ nan) (hy : y ≠ nan) (h : le y x = false) : le x y = true := by
  cases x <;> cases y <;> simp only [le, decide_eq_true_eq, decide_eq_false_iff_not, not_le, ne_eq, not_true_eq_false] at hx hy h ⊢
  · exact h.le
  all_goals grind

end Order

section Arithmetic

variable [Field α] [LinearOrder α]

/-- The magnitude. -/
def abs : Extended α → Extended α
  | finite x => finite |x|
  | infinite _ => infinite false
  | nan => nan

/-- The larger of two; what is not a number is passed on. -/
def maximum : Extended α → Extended α → Extended α
  | finite x, finite y => finite (max x y)
  | finite x, infinite n => if n then finite x else infinite n
  | infinite n, finite y => if n then finite y else infinite n
  | infinite m, infinite n => infinite (m && n)
  | _, _ => nan

/-- The product. -/
def mul : Extended α → Extended α → Extended α
  | finite x, finite y => finite (x * y)
  | finite x, infinite n => if x = 0 then nan else infinite (xor n (x < 0))
  | infinite n, finite y => if y = 0 then nan else infinite (xor n (y < 0))
  | infinite m, infinite n => infinite (xor m n)
  | _, _ => nan

/-- The quotient. -/
def div : Extended α → Extended α → Extended α
  | finite x, finite y => if y ≠ 0 then finite (x / y) else if x = 0 then nan else infinite (x < 0)
  | finite _, infinite _ => finite 0
  | infinite n, finite y => infinite (xor n (y < 0))
  | _, _ => nan

/-- Above zero. -/
def positive : Extended α → Bool
  | finite x => 0 < x
  | infinite n => !n
  | nan => false

/-- The largest magnitude of a column. -/
def maxAbs (column : List (Extended α)) : Extended α := column.foldr (fun v m => maximum (abs v) m) (finite 0)

end Arithmetic

end Extended

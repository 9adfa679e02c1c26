import Mathlib.Algebra.GroupWithZero.Nat
import Mathlib.Data.Nat.Cast.Defs

/-!
# Numerals

Instances about fixed numerals, each a constant: a definition with such a numeral carries no proof of its own.
-/

instance atLeastTwo_2 : Nat.AtLeastTwo 2 := inferInstance
instance atLeastTwo_3 : Nat.AtLeastTwo 3 := inferInstance
instance atLeastTwo_4 : Nat.AtLeastTwo 4 := inferInstance
instance atLeastTwo_5 : Nat.AtLeastTwo 5 := inferInstance
instance atLeastTwo_6 : Nat.AtLeastTwo 6 := inferInstance
instance atLeastTwo_7 : Nat.AtLeastTwo 7 := inferInstance
instance atLeastTwo_8 : Nat.AtLeastTwo 8 := inferInstance
instance atLeastTwo_9 : Nat.AtLeastTwo 9 := inferInstance
instance atLeastTwo_10 : Nat.AtLeastTwo 10 := inferInstance
instance atLeastTwo_85 : Nat.AtLeastTwo 85 := inferInstance
instance atLeastTwo_100 : Nat.AtLeastTwo 100 := inferInstance
instance atLeastTwo_127 : Nat.AtLeastTwo 127 := inferInstance
instance atLeastTwo_65520 : Nat.AtLeastTwo 65520 := inferInstance

instance neZero_1 : @NeZero ℕ MulZeroClass.toZero 1 := ⟨Nat.one_ne_zero⟩

/-- Texts are compared lawfully. -/
instance lawfulBEq_listNat : LawfulBEq (List ℕ) := inferInstance

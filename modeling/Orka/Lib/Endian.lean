import Mathlib
import Orka.Lib.Numerals

/-!
# Little-endian numbers

Numbers of a fixed width in bytes, and arrays of them one after the other.
-/

namespace Endian

/-- The bytes of a number, the lowest first; what does not fit is dropped. -/
def toLE : ℕ → ℕ → List ℕ
  | 0, _ => []
  | width + 1, n => n % 256 :: toLE width (n / 256)

/-- The number bytes stand for. -/
def ofLE (bytes : List ℕ) : ℕ := Nat.ofDigits 256 bytes

/-- The numbers of an array, until its bytes run out. -/
def readLE (width : ℕ) : ℕ → List ℕ → List ℕ
  | 0, _ => []
  | count + 1, bytes => ofLE (bytes.take width) :: readLE width count (bytes.drop width)

@[simp] theorem length_toLE (width n : ℕ) : (toLE width n).length = width := by
  induction width generalizing n with
  | zero => rfl
  | succ width ih => rw [toLE, List.length_cons, ih]

/-- A number reads back modulo its width. -/
theorem ofLE_toLE_mod (width n : ℕ) : ofLE (toLE width n) = n % 256 ^ width := by
  induction width generalizing n with
  | zero =>
    rw [pow_zero, Nat.mod_one]
    rfl
  | succ width ih =>
    rw [ofLE, toLE, Nat.ofDigits_cons, ← ofLE, ih, pow_succ', Nat.mod_mul]

/-- A number that fits is read back. -/
@[simp] theorem ofLE_toLE {width n : ℕ} (h : n < 256 ^ width) : ofLE (toLE width n) = n := by
  rw [ofLE_toLE_mod, Nat.mod_eq_of_lt h]

@[simp] theorem length_flatMap_toLE (width : ℕ) (ns : List ℕ) : (ns.flatMap (toLE width)).length = ns.length * width := by
  induction ns with
  | nil => simp
  | cons n ns ih =>
    rw [List.flatMap_cons, List.length_append, length_toLE, ih, List.length_cons]
    ring

/-- An array whose numbers fit is read back, whatever follows it. -/
theorem readLE_flatMap_toLE {width : ℕ} {ns : List ℕ} (h : ∀ n ∈ ns, n < 256 ^ width) (rest : List ℕ) :
    readLE width ns.length (ns.flatMap (toLE width) ++ rest) = ns := by
  induction ns with
  | nil => rfl
  | cons n ns ih =>
    obtain ⟨hn, hns⟩ := List.forall_mem_cons.1 h
    rw [List.length_cons, readLE, List.flatMap_cons, List.append_assoc, List.take_left' (length_toLE width n),
      List.drop_left' (length_toLE width n), ofLE_toLE hn, ih hns]

end Endian

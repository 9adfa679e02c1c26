import Orka.Lib.Lattice
import Orka.Lib.Menu

/-!
# Nearest lattice points

`quant/lattice.py`: the nearest points of D8 and E8, one vector at a time and in exact arithmetic.
-/

namespace Orka

open Binary16 Lattice Menu

variable {α : Type} [Field α] [LinearOrder α] [FloorRing α]

/-- `diff.abs().argmax(-1)`. -/
def farthestCoord {n : ℕ} (diff : Fin n → α) : ℕ := argmin n fun k => if h : k < n then -|diff ⟨k, h⟩| else 0

/-- `_nearest_Dn(x)`. -/
def nearestDn {n : ℕ} (x : Fin n → α) : Fin n → ℤ :=
  let f : Fin n → ℤ := fun i => roundEven (x i)
  if (∑ i, f i) % 2 ≠ 0 then
    let diff : Fin n → α := fun i => x i - f i
    let j := farthestCoord diff
    fun i => if i.val = j then f i + (if 0 ≤ diff i then 1 else -1) else f i
  else f

/-- `nearest_e8(x)`. -/
def nearestE8 (x : Fin 8 → α) : Fin 8 → α :=
  let a : Fin 8 → α := fun i => nearestDn x i
  let b : Fin 8 → α := fun i => (nearestDn fun k => x k - 1 / 2) i + 1 / 2
  if ∑ i, (x i - a i) ^ 2 ≤ ∑ i, (x i - b i) ^ 2 then a else b

end Orka

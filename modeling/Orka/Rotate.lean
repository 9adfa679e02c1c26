import Orka.Runtime
import Orka.Lib.Walsh
import Mathlib.Data.Int.Bitwise

/-!
# Rotations

The blockwise Hadamard rotation and the seeded orthogonal one. A matrix is the flat list of its rows. numpy divides the
unnormalized transform by `math.sqrt(n)`, torch multiplies it by `1.0 / math.sqrt(n)`.
-/

namespace Orka

open Flat

/-- The rotation modes of the registry, and `"none"`. -/
inductive Rotation where
  | none
  | hadamard
  | orthogonal
  deriving DecidableEq, Repr

section Rotate

variable {α : Type} [Field α]

/-- The loop `while h < n` of the transform: the stage at `h`, then `h` doubles. As `h` is at least 1 and grows, `n` rounds are
enough. -/
def fwhtLoop (n : ℕ) : ℕ → ℕ → List α → List α
  | 0, _, x => x
  | fuel + 1, h, x => if h < n then fwhtLoop n fuel (h * 2) (Walsh.butterfly h x) else x

/-- `_fwht_numpy` and `_fwht_torch` on rows of `n` values; they differ in how they normalize. -/
def fwht (num : Numerics α) (backend : Backend) (n : ℕ) (rows : List (List α)) : Except PyErr (List (List α)) :=
  if n &&& (n - 1) ≠ 0 then .error (.valueError s!"FWHT requires power-of-2 last dim, got {n}")
  else .ok (rows.map fun x => (fwhtLoop n n 1 x).map fun v =>
    match backend with
    | .numpy => v / num.sqrt n
    | .torch => v * (1 / num.sqrt n))

/-- `_largest_pow2_divisor(n)`. -/
def largestPow2Divisor (n : ℕ) : ℕ := if n = 0 then 0 else (Int.land n (-n)).toNat

/-- `_block_fwht_numpy(x, block_size)` and its torch twin, on a matrix of `rows` rows of `n` values. -/
def blockFwht (num : Numerics α) (backend : Backend) (rows n blockSize : ℕ) (x : List α) : Except PyErr (List α) :=
  if blockSize = 0 then .error .zeroDivisionError
  else if n % blockSize ≠ 0 then .error (.valueError s!"block FWHT: dim {n} not divisible by block_size {blockSize}")
  else if blockSize &&& (blockSize - 1) ≠ 0 then .error (.valueError s!"block FWHT: block_size {blockSize} not power-of-2")
  else (fwht num backend blockSize (rowsOf (rows * (n / blockSize)) blockSize x)).map List.flatten

/-- `_hadamard_block_size(cols, min_block)`. -/
def hadamardBlockSize (cols minBlock : ℕ) : Except PyErr ℕ :=
  if cols &&& (cols - 1) = 0 then .ok cols
  else if largestPow2Divisor cols < minBlock then
    .error (.valueError s!"hadamard: cols {cols} has no power-of-2 divisor >= {minBlock}")
  else .ok (largestPow2Divisor cols)

/-- The default `min_block`. -/
def hadamardMinBlock : ℕ := 4

/-- `_tensor_rotation_seed(global_seed, name)`. -/
def tensorRotationSeed (num : Numerics α) (globalSeed : ℕ) (name : String) : ℕ :=
  (num.nameDigest name ^^^ globalSeed) &&& (2 ^ 63 - 1)

/-- `a @ q` for a matrix of `rows` rows and a square `q` of side `cols`. -/
def matmul (rows cols : ℕ) (a q : List α) : List α :=
  tabulate (rows * cols) fun i =>
    ((List.range cols).map fun k => cell a (i / cols * cols + k) * cell q (k * cols + i % cols)).sum

/-- `a @ b.T` for `a` of `rows` rows and `b` of `cols` rows, both `inner` wide. -/
def matmulT (rows inner cols : ℕ) (a b : List α) : List α :=
  tabulate (rows * cols) fun i =>
    ((List.range inner).map fun k => cell a (i / cols * inner + k) * cell b (i % cols * inner + k)).sum

/-- `_rotate_hadamard`: the matrix rotated, and the stored seed 0. -/
def rotateHadamard (num : Numerics α) (backend : Backend) (shape : List ℕ) (tensor : List α) :
    Except PyErr (List α × ℕ) :=
  (rowsCols shape).bind fun (rows, cols) =>
    (hadamardBlockSize cols hadamardMinBlock).bind fun blockSize =>
      (blockFwht num backend rows cols blockSize tensor).map (·, 0)

/-- The widest tensor `_rotate_orthogonal` takes. -/
def orthogonalMaxCols : ℕ := 16384

/-- `_rotate_orthogonal`: the matrix times the seeded orthogonal one, and the seed. -/
def rotateOrthogonal (num : Numerics α) (name : String) (rotationSeed : ℕ) (shape : List ℕ) (tensor : List α) :
    Except PyErr (List α × ℕ) :=
  let seed := tensorRotationSeed num rotationSeed name
  (rowsCols shape).bind fun (rows, cols) =>
    if orthogonalMaxCols < cols then
      .error (.valueError s!"tensor {name} too wide for orthogonal rotation (cols={cols} > 16384). Large tensors like attention masks should be skipped via sensitivity map or excluded from candidates.")
    else .ok (matmul rows cols tensor (num.orthogonal cols seed), seed)

/-- `_rotate_tensor_to_2d`. -/
def rotateTensorTo2d (num : Numerics α) (backend : Backend) (name : String) (rotation : Rotation) (rotationSeed : ℕ)
    (shape : List ℕ) (tensor : List α) : Except PyErr (List α × Option ℕ) :=
  match rotation with
  | .none => .ok (tensor, .none)
  | .hadamard => (rotateHadamard num backend shape tensor).map fun (t, seed) => (t, some seed)
  | .orthogonal => (rotateOrthogonal num name rotationSeed shape tensor).map fun (t, seed) => (t, some seed)

/-- `_unrotate_hadamard(arr, cols)`: the rotation again. -/
def unrotateHadamard (num : Numerics α) (backend : Backend) (rows cols : ℕ) (arr : List α) : Except PyErr (List α) :=
  (hadamardBlockSize cols hadamardMinBlock).bind fun blockSize => blockFwht num backend rows cols blockSize arr

/-- `_unrotate_orthogonal(arr, cols, seed)`: times the transpose, on either backend. -/
def unrotateOrthogonal (num : Numerics α) (rows cols seed : ℕ) (arr : List α) : List α :=
  matmulT rows cols cols arr (num.orthogonal cols seed)

/-- The `unrotate` of a strategy of the registry. -/
def unrotate (num : Numerics α) (backend : Backend) (rotation : Rotation) (rows cols seed : ℕ) (arr : List α) :
    Except PyErr (List α) :=
  match rotation with
  | .hadamard => unrotateHadamard num backend rows cols arr
  | .none | .orthogonal => .ok (unrotateOrthogonal num rows cols seed arr)

/-- `_unrotate_flat(flat, shape, rotation, seed)`; anything but `"hadamard"` inverts as orthogonal. -/
def unrotateFlat (num : Numerics α) (flat : List α) (shape : List ℕ) (rotation : Rotation) (seed : ℕ) :
    Except PyErr (List α) :=
  (rowsCols shape).bind fun (rows, cols) =>
    if (flat.take (rows * cols)).length ≠ rows * cols then .error (.valueError "cannot reshape array")
    else unrotate num .numpy rotation rows cols seed (flat.take (rows * cols))

end Rotate

end Orka

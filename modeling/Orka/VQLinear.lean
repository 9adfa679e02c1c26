import Orka.Runtime

/-!
# The inference layer

`VQLinear` holds one weight matrix as indices, codebooks and block scales, with a sparse correction in CSR form. Its constructor
fixes the sizes of the buffers; `reconstruct_weight` decodes the matrix.
-/

namespace Orka

open Flat

/-- A sparse matrix in CSR form: row pointers, columns, values. -/
structure Csr (α : Type) where
  rowptr : List ℤ
  col : List ℤ
  val : List α
  deriving DecidableEq

/-- The buffers of one stage: `indices_{s}`, or `indices_lo_{s}` and `indices_hi_{s}` where the stage has a plane width, and
`codebook_{s}`. -/
structure StageBuffers (α : Type) where
  planeWidth : ℕ
  indices : List ℤ
  lo : List ℕ
  hi : List ℕ
  codebook : List (List α)
  deriving DecidableEq

/-- A layer: its sizes, its buffers, the cached correction `_corr_sp_cache` and the memo `_n1_ok`. -/
structure VQLinear (α : Type) where
  outFeatures : ℕ
  inFeatures : ℕ
  groupSize : ℕ
  blockSize : ℕ
  stages : List (StageBuffers α)
  scales : List α
  corr : Csr α
  corrSpCache : Option (Csr α)
  bias : Option (List α)
  groupMajor : Bool
  n1Ok : Option Bool
  deriving DecidableEq

/-- `max(1, (cb_size - 1).bit_length())`. -/
def indexWidth (cbSize : ℕ) : ℕ := max 1 (if cbSize ≤ 1 then 0 else Nat.log2 (cbSize - 1) + 1)

/-- `_plane_width` of a codebook size: indices of 10 and 12 bits are stored in planes. -/
def planeWidth (cbSize : ℕ) : ℕ :=
  let width := indexWidth cbSize
  if 8 < width ∧ width ≤ 12 ∧ (width - 8 = 2 ∨ width - 8 = 4) then width else 0

namespace VQLinear

/-- The number of values of the matrix. -/
def total {α : Type} (layer : VQLinear α) : ℕ := layer.outFeatures * layer.inFeatures

/-- `any(self._plane_width)`. -/
def planed {α : Type} (layer : VQLinear α) : Bool := layer.stages.any fun s => s.planeWidth != 0

end VQLinear

/-- The constructor's sizes, for a layer none of whose stages is in planes, and indices that name codewords. -/
structure Unplaned {α : Type} (layer : VQLinear α) : Prop where
  out_pos : 0 < layer.outFeatures
  group_pos : 0 < layer.groupSize
  block_pos : 0 < layer.blockSize
  plane_width : ∀ s ∈ layer.stages, s.planeWidth = 0
  index_count : ∀ s ∈ layer.stages, s.indices.length = ceilDiv (layer.outFeatures * layer.inFeatures) layer.groupSize
  index_range : ∀ s ∈ layer.stages, ∀ i ∈ s.indices, 0 ≤ i ∧ i < s.codebook.length
  row_width : ∀ s ∈ layer.stages, ∀ row ∈ s.codebook, row.length = layer.groupSize
  scale_count : layer.scales.length = ceilDiv (layer.outFeatures * layer.inFeatures) layer.blockSize

/-! ## Reading the indices -/

/-- The high bits of `n` indices out of their plane, first index in the top bits of a byte. -/
def unpackHigh (hiBits n : ℕ) (hi : List ℕ) : List ℕ :=
  ((hi.map fun byte => (List.range (8 / hiBits)).map fun j =>
    (byte >>> (8 - (j + 1) * hiBits)) &&& ((1 <<< hiBits) - 1)).flatten).take n

/-- `_stage_indices_int(s)`. -/
def StageBuffers.indicesInt {α : Type} (s : StageBuffers α) : Except PyErr (List ℤ) :=
  if s.planeWidth = 0 then .ok s.indices
  else
    let high := unpackHigh (s.planeWidth - 8) s.lo.length s.hi
    if high.length = s.lo.length then .ok (List.zipWith (fun lo high => ((lo ||| (high <<< 8) : ℕ) : ℤ)) s.lo high)
    else .error (.runtimeError "The size of tensor a must match the size of tensor b")

/-- `xs.view(r, c).t().reshape(-1)`. -/
def viewTransposed {β : Type} [Zero β] (r c : ℕ) (xs : List β) : Except PyErr (List β) :=
  if xs.length = r * c then .ok (tabulate (c * r) fun i => cell xs (i % r * c + i / r))
  else .error (.runtimeError "shape is invalid for input")

namespace VQLinear

section Reconstruct

variable {α : Type} [Ring α]

/-- The indices of a stage in row-major order. -/
def rowMajorIndices (layer : VQLinear α) (s : StageBuffers α) : Except PyErr (List ℤ) :=
  s.indicesInt.bind fun idxs =>
    if layer.groupMajor = true ∧ idxs.length = layer.total / layer.groupSize then
      if layer.outFeatures = 0 then .error .zeroDivisionError
      else viewTransposed (layer.total / layer.groupSize / layer.outFeatures) layer.outFeatures idxs
    else .ok idxs

/-- The block scales in row-major order. -/
def rowMajorScales (layer : VQLinear α) : Except PyErr (List α) :=
  let nBlocks := ceilDiv layer.total layer.blockSize
  if layer.groupMajor = true ∧ layer.scales.length = nBlocks then
    if layer.outFeatures = 0 then .error .zeroDivisionError
    else viewTransposed (nBlocks / layer.outFeatures) layer.outFeatures layer.scales
  else .ok layer.scales

/-- `W_vq`: `reconstruct_weight` up to its correction. -/
def reconstructVq (layer : VQLinear α) : Except PyErr (List α) :=
  if layer.groupSize = 0 ∨ layer.blockSize = 0 then .error .zeroDivisionError
  else
    let total := layer.total
    (layer.stages.foldlM (fun decoded s => (layer.rowMajorIndices s).bind fun idxs =>
      (takeRows s.codebook idxs).bind fun rows => addInto decoded rows.flatten)
      (List.replicate (ceilDiv total layer.groupSize * layer.groupSize) 0)).bind fun decoded =>
      (layer.rowMajorScales).bind fun sc =>
        let nBlocks := ceilDiv total layer.blockSize
        let padded := decoded.take total ++ List.replicate (nBlocks * layer.blockSize - total) 0
        (broadcastMatrix (· * ·) nBlocks layer.blockSize padded (sc.take nBlocks).length 1 (sc.take nBlocks)).map
          fun scaled => scaled.take total

/-- `_correction_csr()`: the raw buffers, or the cache they were moved to. -/
def correctionCsr (layer : VQLinear α) : Option (Csr α) :=
  if 0 < layer.corr.col.length then some layer.corr else layer.corrSpCache

/-- `torch.repeat_interleave(torch.arange(out_features), counts)`. -/
def csrRows (outFeatures : ℕ) (rowptr : List ℤ) : Except PyErr (List ℤ) :=
  let counts := List.zipWith (· - ·) rowptr.tail rowptr
  if counts.length ≠ outFeatures ∨ counts.any (· < 0) then .error (.runtimeError "repeats must match and not be negative")
  else .ok ((List.range outFeatures).flatMap fun (r : ℕ) => List.replicate (cell counts r).toNat (r : ℤ))

/-- `decoded[flat[mask]] += val[mask]` with the flat positions of a CSR correction. -/
def addCorrection (num : Numerics α) (layer : VQLinear α) (csr : Csr α) (decoded : List α) : Except PyErr (List α) :=
  (csrRows layer.outFeatures csr.rowptr).bind fun rows =>
    if rows.length ≠ csr.col.length ∨ rows.length ≠ csr.val.length then
      .error (.runtimeError "The size of tensor a must match the size of tensor b")
    else
      let flat := List.zipWith (fun r c => r * (layer.inFeatures : ℤ) + c) rows csr.col
      let kept := (flat.zip csr.val).filter fun w => decide (w.1 < (layer.total : ℤ))
      ((kept.map Prod.fst).mapM (axisIndex decoded.length)).bind fun ps =>
        assignAtTorch num decoded (kept.map Prod.fst) (List.zipWith (fun p v => cell decoded p + v) ps (kept.map Prod.snd))

/-- `reconstruct_weight()`, flattened. -/
def reconstructWeight (num : Numerics α) (layer : VQLinear α) : Except PyErr (List α) :=
  (layer.reconstructVq).bind fun decoded =>
    match layer.correctionCsr with
    | none => .ok decoded
    | some csr => layer.addCorrection num csr decoded

end Reconstruct

end VQLinear

end Orka

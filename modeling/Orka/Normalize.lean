import Orka.Format

/-!
# Normalization

The modes of `normalize.py`. The numpy and the torch function of a mode do the same exact arithmetic on the same blocks, so
each mode is one definition. A tensor is flat with its shape beside it; blocks are runs of the flat stream, except in the
channel mode, which cuts each row.
-/

namespace Orka

open Flat

/-- The normalization modes of the registry, and `"none"`. -/
inductive Normalization where
  | none
  | blockMax
  | channelBlockMax
  | slrqBlock
  | awq
  | awqBlockMax
  deriving DecidableEq, Repr

/-- `stores_block_scales(normalization)`. -/
def storesBlockScales : Normalization → Bool
  | .blockMax | .channelBlockMax | .slrqBlock | .awqBlockMax => true
  | .none | .awq => false

/-- `NormalizationResult`: the slots a mode does not fill stay empty. -/
structure NormalizationResult (α : Type) where
  tensor : List α
  rowScales : Option (List α) := .none
  sourceFlat : List α
  awqColScales : Option (List α) := .none
  salientWeights : Option (List α) := .none
  salientIndices : Option (List ℕ) := .none

section Normalize

variable {α : Type} [Field α] [LinearOrder α] [IsStrictOrderedRing α] [FloorRing α]

/-- `_MIN_STORABLE_SCALE`. -/
def minStorableScale : α := 2 ^ (-24 : ℤ)

/-- The stream padded with zeros to whole blocks, block by block. -/
def blocksOf (blockSize : ℕ) (flat : List α) : List (List α) :=
  rowsOf (ceilDiv flat.length blockSize) blockSize (flat ++ List.replicate (padding flat.length blockSize) 0)

/-- `np.maximum(np.where(scales == 0, 1.0, scales), _MIN_STORABLE_SCALE)` for one scale. -/
def storableScale (scale : α) : α := max (if scale = 0 then 1 else scale) minStorableScale

/-- `(blocks / safe[:, None]).reshape(-1)`. -/
def divideBlocks (blocks : List (List α)) (safe : List α) : List α :=
  (List.zipWith (fun block s => block.map (· / s)) blocks safe).flatten

/-- `_normalize_tensor_block_max_numpy` and its torch twin. -/
def normalizeTensorBlockMax (flat : List α) (blockSize : ℕ) : Except PyErr (NormalizationResult α) :=
  if blockSize = 0 then .error .zeroDivisionError
  else
    let blocks := blocksOf blockSize flat
    let safe := fp16StorageRoundtrip (blocks.map fun block => storableScale (maxAbs block))
    .ok { tensor := (divideBlocks blocks safe).take flat.length, rowScales := some safe, sourceFlat := flat }

/-- `_normalize_tensor_channel_block_max_numpy` and its torch twin: blocks inside the rows of the last dimension, or those of
the flat stream where that dimension is not a whole number of blocks. -/
def normalizeTensorChannelBlockMax (shape : List ℕ) (flat : List α) (blockSize : ℕ) :
    Except PyErr (NormalizationResult α) :=
  if 2 ≤ shape.length ∧ blockSize = 0 then .error .zeroDivisionError
  else if shape.length < 2 ∨ shape.getLastD 0 % blockSize ≠ 0 then normalizeTensorBlockMax flat blockSize
  else
    let rows := shape.dropLast.prod
    let cols := shape.getLastD 0
    let blocked := (rowsOf rows cols flat).map (rowsOf (cols / blockSize) blockSize)
    let safe := fp16StorageRoundtrip (blocked.flatten.map fun block => storableScale (maxAbs block))
    .ok { tensor := divideBlocks blocked.flatten safe, rowScales := some safe, sourceFlat := flat }

/-- `np.argmax(np.abs(block))`: the first place of the largest magnitude. -/
def argmaxAbs (block : List α) : ℕ := block.findIdx fun v => |v| = maxAbs block

/-- The power of two at or above a block's anchor, floored at the least storable scale. -/
def anchorScale (anchor : α) : α := max (2 ^ Int.clog 2 (if anchor = 0 then 1 else anchor)) minStorableScale

/-- `_normalize_tensor_slrq_block_numpy` and its torch twin. -/
def normalizeTensorSlrqBlock (flat : List α) (blockSize : ℕ) (salientEnabled : Bool) :
    Except PyErr (NormalizationResult α) :=
  if blockSize = 0 then .error .zeroDivisionError
  else
    let blocks := blocksOf blockSize flat
    if salientEnabled then
      let salientIndices := blocks.map argmaxAbs
      let salientWeights := fp16StorageRoundtrip (List.zipWith cell blocks salientIndices)
      let zeroed := List.zipWith (fun block i => block.set i 0) blocks salientIndices
      let safe := fp16StorageRoundtrip (zeroed.map fun block => anchorScale (maxAbs block))
      .ok { tensor := (divideBlocks zeroed safe).take flat.length, rowScales := some safe, sourceFlat := flat,
            salientWeights := some salientWeights, salientIndices := some salientIndices }
    else
      let safe := fp16StorageRoundtrip (blocks.map fun block => anchorScale (maxAbs block))
      .ok { tensor := (divideBlocks blocks safe).take flat.length, rowScales := some safe, sourceFlat := flat }

/-- The column scales of awq: `1 / mean(|X|) ** alpha` of each column, the mean kept at least `1e-6`. -/
def awqScales (num : Numerics α) (X : List (List α)) (cols : ℕ) (alpha : α) : List α :=
  fp16StorageRoundtrip ((List.range cols).map fun j =>
    1 / num.pow (max ((X.map fun row => |cell row j|).sum / X.length) (1 / 10 ^ 6)) alpha)

/-- `rows / scales[None, :]`. -/
def divideCols (cols : ℕ) (flat scales : List α) : List α :=
  tabulate flat.length fun i => cell flat i / cell scales (i % cols)

/-- `_normalize_tensor_awq_numpy` and its torch twin, with the calibration activations as rows. -/
def normalizeTensorAwq (num : Numerics α) (shape : List ℕ) (flat : List α) (X : List (List α)) (alpha : α) :
    Except PyErr (NormalizationResult α) :=
  (rowsCols shape).bind fun (_, cols) =>
    if (X.headD []).length ≠ cols then .error (.runtimeError "awq calibration shape mismatches tensor cols")
    else
      let scales := awqScales num X cols alpha
      .ok { tensor := divideCols cols flat scales, rowScales := some scales, sourceFlat := flat }

/-- `_normalize_tensor_awq_block_max_torch`. -/
def normalizeTensorAwqBlockMax (num : Numerics α) (shape : List ℕ) (flat : List α) (X : List (List α)) (alpha : α)
    (blockSize : ℕ) : Except PyErr (NormalizationResult α) :=
  (rowsCols shape).bind fun (_, cols) =>
    if (X.headD []).length ≠ cols then .error (.runtimeError "awq-block-max calibration shape mismatches tensor cols")
    else
      let scales := awqScales num X cols alpha
      (normalizeTensorBlockMax (divideCols cols flat scales) blockSize).map fun res =>
        { res with sourceFlat := flat, awqColScales := some scales }

/-- `_apply_normalization`: the handler of the mode. Awq without activations of the tensor is no normalization, and
awq-block-max without them is block-max. -/
def applyNormalization (num : Numerics α) (backend : Backend) (normalization : Normalization) (shape : List ℕ)
    (flat : List α) (awqActivations : Option (List (List α))) (awqAlpha : α) (blockScaleSize : ℕ) (slrqSalient : Bool) :
    Except PyErr (NormalizationResult α) :=
  match normalization with
  | .none => .ok { tensor := flat, sourceFlat := flat }
  | .blockMax => normalizeTensorBlockMax flat blockScaleSize
  | .channelBlockMax => normalizeTensorChannelBlockMax shape flat blockScaleSize
  | .slrqBlock => normalizeTensorSlrqBlock flat blockScaleSize slrqSalient
  | .awq => match awqActivations with
    | .none => .ok { tensor := flat, sourceFlat := flat }
    | some X => normalizeTensorAwq num shape flat X awqAlpha
  | .awqBlockMax =>
    if backend = .numpy then .error (.runtimeError "awq-block-max requires --backend torch")
    else match awqActivations with
      | .none => normalizeTensorBlockMax flat blockScaleSize
      | some X => normalizeTensorAwqBlockMax num shape flat X awqAlpha blockScaleSize

/-! ## The inverses -/

/-- `_apply_block_max_scales_numpy(flat, scales, block_size)`. -/
def applyBlockMaxScalesNumpy (flat scales : List α) (blockSize : ℕ) : Except PyErr (List α) :=
  if blockSize = 0 then .error .zeroDivisionError
  else
    let padded := flat ++ List.replicate (padding flat.length blockSize) 0
    let blocks := padded.length / blockSize
    if scales.length ≠ blocks then
      .error (.valueError s!"block scale count {scales.length} != block count {blocks}")
    else .ok ((scaleRows blockSize padded scales).take flat.length)

/-- `apply_block_scales(..., backend="torch")`: scales past the last block are dropped, and torch broadcasts. -/
def applyBlockScalesTorch (flat scales : List α) (blockSize : ℕ) : Except PyErr (List α) :=
  if blockSize = 0 then .error .zeroDivisionError
  else
    let padded := flat ++ List.replicate (padding flat.length blockSize) 0
    let blocks := padded.length / blockSize
    let used := scales.take blocks
    (broadcastMatrix (· * ·) blocks blockSize padded used.length 1 used).map fun out =>
      if padding flat.length blockSize = 0 then out else out.take flat.length

/-- `apply_block_scales(decoded, scales, block_size, backend)`. -/
def applyBlockScales (backend : Backend) (decoded scales : List α) (blockSize : ℕ) : Except PyErr (List α) :=
  match backend with
  | .numpy => applyBlockMaxScalesNumpy decoded scales blockSize
  | .torch => applyBlockScalesTorch decoded scales blockSize

/-- Every column of a matrix times its own factor. -/
def scaleCols (cols : ℕ) (flat scales : List α) : List α :=
  tabulate flat.length fun i => cell flat i * cell scales (i % cols)

/-- `_apply_col_l2_scales_numpy(flat, shape, scales)`. -/
def applyColL2ScalesNumpy (flat : List α) (shape : List ℕ) (scales : List α) : Except PyErr (List α) :=
  (rowsCols shape).bind fun (rows, cols) =>
    if (flat.take (rows * cols)).length ≠ rows * cols then .error (.valueError "cannot reshape array")
    else if scales.length ≠ cols then .error (.valueError "col scale count does not match tensor cols")
    else .ok (scaleCols cols (flat.take (rows * cols)) scales)

/-- `apply_col_scales(..., backend="torch")`: torch broadcasts the scales over the rows. -/
def applyColScalesTorch (flat : List α) (shape : List ℕ) (scales : List α) : Except PyErr (List α) :=
  (rowsCols shape).bind fun (rows, cols) =>
    if (flat.take (rows * cols)).length ≠ rows * cols then .error (.runtimeError "shape is invalid for input")
    else broadcastMatrix (· * ·) rows cols (flat.take (rows * cols)) 1 scales.length scales

/-- `apply_col_scales(decoded, shape, scales, backend)`. -/
def applyColScales (backend : Backend) (decoded : List α) (shape : List ℕ) (scales : List α) : Except PyErr (List α) :=
  match backend with
  | .numpy => applyColL2ScalesNumpy decoded shape scales
  | .torch => applyColScalesTorch decoded shape scales

end Normalize

end Orka

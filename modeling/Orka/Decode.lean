import Orka.Manifest

/-!
# Decoding one tensor

`_decode_tensor` on numpy and `_decode_tensor_torch`, step by step: the stage sum, truncation to the packed values, outliers,
pillars, un-rotation, scales, salient values and the low-rank correction. Each step keeps the way its own decoder dispatches.
-/

namespace Orka

open Flat

section Decode

variable {α : Type} [Field α] [LinearOrder α] [IsStrictOrderedRing α] [FloorRing α]

/-! ## Steps on arrays in memory -/

/-- `np.arange(b_count) * block_size + s_idx`. -/
def salientPositions (blockSize : ℕ) (sIdx : List ℤ) : List ℤ :=
  tabulate sIdx.length fun b => (b * blockSize : ℕ) + cell sIdx b

/-- `decoded[flat_indices[mask]] = s_val[mask]` with the positions past the end masked out. -/
def injectSalient (decoded : List α) (sIdx : List ℤ) (sVal : List α) (blockSize : ℕ) : Except PyErr (List α) :=
  if sIdx.length ≠ sVal.length then .error .indexError
  else
    let kept := ((salientPositions blockSize sIdx).zip sVal).filter fun w => decide (w.1 < (decoded.length : ℤ))
    assignAt decoded (kept.map Prod.fst) (kept.map Prod.snd)

/-- The same on torch. -/
def injectSalientTorch (num : Numerics α) (decoded : List α) (sIdx : List ℤ) (sVal : List α) (blockSize : ℕ) :
    Except PyErr (List α) :=
  if sIdx.length ≠ sVal.length then .error .indexError
  else
    let kept := ((salientPositions blockSize sIdx).zip sVal).filter fun w => decide (w.1 < (decoded.length : ℤ))
    assignAtTorch num decoded (kept.map Prod.fst) (kept.map Prod.snd)

/-- `_apply_lowrank_numpy`, with the low-rank factors already read. -/
def applyLowrankNumpy (decoded : List α) (shape : List ℕ) (rank : ℕ) (a b : List (List α)) : Except PyErr (List α) :=
  (rowsCols shape).bind fun (rows, cols) =>
    (reshape rows cols (decoded.take (rows * cols))).bind fun mat =>
      broadcastMatrix (· + ·) rows cols mat.flatten a.length b.length (matmulT a.length rank b.length a.flatten b.flatten)

/-! ## The numpy decoder -/

variable (num : Numerics α) (store : Store α) (tm : TensorMeta)

/-- The stage sum `decoded_np`. -/
def decodeStages : Except PyErr (List α) :=
  if tm.groupSize = 0 then .error .zeroDivisionError
  else
    (resolveStages tm).foldlM (fun acc stage =>
      (readStageArrays num store stage tm.groupSize tm.paddedValues).bind fun (cb, idxs) =>
        (takeRows cb idxs).bind fun rows => addInto acc rows.flatten)
      (List.replicate (ceilDiv tm.paddedValues tm.groupSize * tm.groupSize) 0)

/-- The outlier step. -/
def decodeOutliers (decoded : List α) : Except PyErr (List α) :=
  match tm.outliers with
  | none => .ok decoded
  | some outl => (readOutliersOf num store outl).bind fun (positions, values) =>
    if positions.isEmpty then .ok decoded else assignAt decoded positions values

/-- The pillar step. -/
def decodePillars (decoded : List α) : Except PyErr (List α) :=
  match tm.pillars with
  | none => .ok decoded
  | some pillars => (readPillarsOf num store pillars).bind fun (positions, values) =>
    if positions.isEmpty then .ok decoded else assignAt decoded positions values

/-- The un-rotation step: only the modes of the literal set are inverted. -/
def decodeRotation (decoded : List α) : Except PyErr (List α) :=
  match tm.rotationMode with
  | .none => .ok decoded
  | rotation => unrotateFlat num decoded tm.shape rotation tm.seed

/-- The scale step: awq by column, the three block modes by block, awq-block-max by block and then by column. -/
def decodeScales (decoded : List α) : Except PyErr (List α) :=
  match tm.normalizationMode with
  | .none => .ok decoded
  | .awq => (readScales num store tm).bind fun scales => applyColScales .numpy decoded tm.shape scales
  | .blockMax | .channelBlockMax | .slrqBlock =>
    (readScales num store tm).bind fun scales => applyBlockScales .numpy decoded scales tm.blockSize
  | .awqBlockMax =>
    (readScales num store tm).bind fun blockScales =>
      (applyBlockScales .numpy decoded blockScales tm.blockSize).bind fun decoded =>
        match tm.awqColScales with
        | none => .ok decoded
        | some awqMeta => (readAwqColScales num store awqMeta).bind fun awqScales =>
          applyColScales .numpy decoded tm.shape awqScales

/-- The salient step. -/
def decodeSalient (decoded : List α) : Except PyErr (List α) :=
  match tm.salient with
  | none => .ok decoded
  | some salient => (readSalientOf num store salient).bind fun (sIdx, sVal) =>
    if sIdx.isEmpty then .ok decoded else injectSalient decoded sIdx sVal tm.blockSize

/-- The low-rank step. -/
def decodeLowrank (decoded : List α) : Except PyErr (List α) :=
  match tm.lowrank with
  | none => .ok decoded
  | some lr => (readLowrank num store lr).bind fun (a, b) => applyLowrankNumpy decoded tm.shape lr.rank a b

/-- `_decode_tensor(out_dir, tensor_meta)`. -/
def decodeTensor : Except PyErr (List α) :=
  (decodeStages num store tm).bind fun sum =>
    (decodeOutliers num store tm (sum.take tm.packedValues)).bind fun decoded =>
      (decodePillars num store tm decoded).bind fun decoded =>
        (decodeRotation num tm decoded).bind fun decoded =>
          (decodeScales num store tm decoded).bind fun decoded =>
            (decodeSalient num store tm decoded).bind fun decoded => decodeLowrank num store tm decoded

/-! ## The torch decoder -/

/-- The outlier step on torch. -/
def decodeOutliersTorch (decoded : List α) : Except PyErr (List α) :=
  match tm.outliers with
  | none => .ok decoded
  | some outl => (readOutliersOf num store outl).bind fun (positions, values) =>
    if positions.isEmpty then .ok decoded else assignAtTorch num decoded positions values

/-- The pillar step on torch. -/
def decodePillarsTorch (decoded : List α) : Except PyErr (List α) :=
  match tm.pillars with
  | none => .ok decoded
  | some pillars => (readPillarsOf num store pillars).bind fun (positions, values) =>
    if positions.isEmpty then .ok decoded else assignAtTorch num decoded positions values

/-- The un-rotation step on torch: the modes the registry knows are inverted. -/
def decodeRotationTorch (decoded : List α) : Except PyErr (List α) :=
  match tm.rotationMode with
  | .none => .ok decoded
  | rotation => (rowsCols tm.shape).bind fun (rows, cols) =>
    (reshape rows cols (decoded.take (rows * cols))).bind fun arr =>
      unrotate num .torch rotation rows cols tm.seed arr.flatten

/-- The scale step on torch: block scales for all the modes that store them, with the awq columns inside that branch. -/
def decodeScalesTorch (decoded : List α) : Except PyErr (List α) :=
  if storesBlockScales tm.normalizationMode then
    (readScales num store tm).bind fun scales =>
      (applyBlockScales .torch decoded scales tm.blockSize).bind fun decoded =>
        if tm.normalizationMode = .awqBlockMax then
          match tm.awqColScales with
          | none => .ok decoded
          | some awqMeta => (readAwqColScales num store awqMeta).bind fun awqScales =>
            applyColScales .torch decoded tm.shape awqScales
        else .ok decoded
  else if tm.normalizationMode = .awq then
    (readScales num store tm).bind fun scales => applyColScales .torch decoded tm.shape scales
  else .ok decoded

/-- The salient step on torch; here an empty list of salient values is injected too. -/
def decodeSalientTorch (decoded : List α) : Except PyErr (List α) :=
  match tm.salient with
  | none => .ok decoded
  | some salient => (readSalientOf num store salient).bind fun (sIdx, sVal) =>
    injectSalientTorch num decoded sIdx sVal tm.blockSize

/-- The low-rank step on torch: the columns are counted from the values there are. -/
def decodeLowrankTorch (decoded : List α) : Except PyErr (List α) :=
  match tm.lowrank with
  | none => .ok decoded
  | some lr => (readLowrank num store lr).bind fun (a, b) =>
    (rowsCols tm.shape).bind fun (rows, _) =>
      if rows = 0 then .error .zeroDivisionError
      else
        let cols := decoded.length / rows
        broadcastMatrix (· + ·) rows cols (decoded.take (rows * cols)) a.length b.length
          (matmulT a.length lr.rank b.length a.flatten b.flatten)

/-- `_decode_tensor_torch(out_dir, tm, device)`, flattened: the final reshape asks for as many values as the shape has. The
stages are summed as on numpy. -/
def decodeTensorTorch : Except PyErr (List α) :=
  (decodeStages num store tm).bind fun sum =>
    (decodeOutliersTorch num store tm (sum.take tm.packedValues)).bind fun decoded =>
      (decodePillarsTorch num store tm decoded).bind fun decoded =>
        (decodeRotationTorch num tm decoded).bind fun decoded =>
          (decodeScalesTorch num store tm decoded).bind fun decoded =>
            (decodeSalientTorch num store tm decoded).bind fun decoded =>
              (decodeLowrankTorch num store tm decoded).bind fun decoded =>
                if decoded.length = tm.shape.prod then .ok decoded
                else .error (.runtimeError "shape is invalid for input")

end Decode

end Orka

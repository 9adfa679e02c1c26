import Orka.Decode

/-!
# The differentiable mirror of the decoder

`_load_decode_consts` reads every fixed quantity of one tensor's decode chain, and `_differentiable_decode` runs the chain on
given codebooks with out-of-place operations: injections through a mask, its own transform, its own block padding.
-/

namespace Orka

open Flat

/-- One stage of the constants: the codebook as it is stored, the indices, and where the codebook was read. -/
structure StageConsts (α : Type) where
  codebook : List (List α)
  indices : List ℤ
  path : String
  dtype : CodebookDtype

/-- The dictionary `_load_decode_consts` returns; a key it does not set is `none`. -/
structure DecodeConsts (α : Type) where
  stages : List (StageConsts α)
  padded : ℕ
  packed : ℕ
  rows : ℕ
  cols : ℕ
  outliers : Option (List Bool × List α)
  pillars : Option (List Bool × List α)
  rotation : Rotation
  q : Option (List α)
  hadamardBlock : Option ℕ
  blockScales : Option (List α × ℕ)
  awqCol : Option (List α)
  salient : Option (List Bool × List α)

section Mirror

variable {α : Type} [Field α] [LinearOrder α] [IsStrictOrderedRing α] [FloorRing α]

/-- `_injection_consts(positions, values, length, device)`: a mask and the values under it. -/
def injectionConsts (num : Numerics α) (positions : List ℤ) (values : List α) (length : ℕ) :
    Except PyErr (List Bool × List α) :=
  if positions.length ≠ values.length then .error .indexError
  else
    let kept := (positions.zip values).filter fun w => decide (w.1 < (length : ℤ))
    ((kept.map Prod.fst).mapM (axisIndex length)).bind fun ps =>
      (assignAtTorch num (List.replicate length 0) (kept.map Prod.fst) (kept.map Prod.snd)).map fun vals =>
        (scatter (List.replicate length false) (ps.map (·, true)), vals)

/-- The injection of an escape field, if it has positions. -/
def escapeConsts (num : Numerics α) (read : Option (Except PyErr (List ℤ × List α))) (packed : ℕ) :
    Except PyErr (Option (List Bool × List α)) :=
  match read with
  | none => .ok none
  | some r => r.bind fun (positions, values) =>
    if positions.isEmpty then .ok none else (injectionConsts num positions values packed).map some

variable (num : Numerics α) (store : Store α) (tm : TensorMeta)

/-- The stages of an entry, or one stage from the fields of the tensor; here that stage also names its group size. -/
def mirrorStages : List StageMeta :=
  if tm.stages.isEmpty then
    [{ codebook := tm.codebook, codebookSize := tm.codebookSize, indexBits := tm.indexBits, indices := tm.indices,
       groupSize := some tm.groupSize }]
  else tm.stages

/-- `"cols"` of the constants: at least 1. -/
def mirrorCols : ℕ := if 1 < tm.shape.length then max 1 tm.shape.tail.prod else 1

/-- The block scales of the constants, with their block size. -/
def loadBlockScales : Except PyErr (Option (List α × ℕ)) :=
  if storesBlockScales tm.normalizationMode then (readScales num store tm).map fun scales => some (scales, tm.blockSize)
  else .ok none

/-- The column scales of the constants. -/
def loadAwqCol : Except PyErr (Option (List α)) :=
  match tm.normalizationMode, tm.awqColScales with
  | .awq, _ => (readScales num store tm).map some
  | .awqBlockMax, some awqMeta => (readAwqColScales num store awqMeta).map some
  | _, _ => .ok none

/-- The salient injection of the constants. -/
def loadSalient : Except PyErr (Option (List Bool × List α)) :=
  match tm.salient with
  | none => .ok none
  | some salient => (readSalientOf num store salient).bind fun (sIdx, sVal) =>
    if sIdx.isEmpty then .ok none
    else (injectionConsts num (salientPositions tm.blockSize sIdx) sVal tm.packedValues).map some

/-- `"hadamard_block"` of the constants. -/
def loadHadamardBlock : Except PyErr (Option ℕ) :=
  if tm.rotationMode = .hadamard then (hadamardBlockSize (mirrorCols tm) hadamardMinBlock).map some else .ok none

/-- One stage read by `_load_decode_consts`. -/
def loadStage (stage : StageMeta) : Except PyErr (StageConsts α) :=
  (readStageArrays num store stage tm.groupSize tm.paddedValues).map fun (cb, idxs) =>
    { codebook := cb, indices := idxs, path := stage.codebook, dtype := stage.codebookDtype.getD .float32 }

/-- `_load_decode_consts(out_dir, tm, device)`. -/
def loadDecodeConsts : Except PyErr (DecodeConsts α) :=
  ((mirrorStages tm).mapM (loadStage num store tm)).bind fun stages =>
    (escapeConsts num (tm.outliers.map (readOutliersOf num store)) tm.packedValues).bind fun outliers =>
      (escapeConsts num (tm.pillars.map (readPillarsOf num store)) tm.packedValues).bind fun pillars =>
        (loadHadamardBlock tm).bind fun block =>
          (loadBlockScales num store tm).bind fun blockScales =>
            (loadAwqCol num store tm).bind fun awqCol =>
              (loadSalient num store tm).map fun salient =>
                { stages := stages, padded := tm.paddedValues, packed := tm.packedValues, rows := tm.shape.headD 0,
                  cols := mirrorCols tm, outliers := outliers, pillars := pillars, rotation := tm.rotationMode,
                  q := if tm.rotationMode = .orthogonal then some (num.orthogonal (mirrorCols tm) tm.seed) else none,
                  hadamardBlock := block, blockScales := blockScales, awqCol := awqCol, salient := salient }

/-- `torch.where(mask, vals, decoded)`. -/
def whereMask (mask : List Bool) (vals decoded : List α) : Except PyErr (List α) :=
  if mask.length = decoded.length ∧ vals.length = decoded.length then
    .ok (tabulate decoded.length fun i => if mask.getD i false then cell vals i else cell decoded i)
  else .error (.runtimeError "The size of tensor a must match the size of tensor b")

/-- An injection, if the constants have it. -/
def mirrorInject (injection : Option (List Bool × List α)) (decoded : List α) : Except PyErr (List α) :=
  match injection with
  | none => .ok decoded
  | some (mask, vals) => whereMask mask vals decoded

/-- One stage of the mirror's sum: the first part starts it. -/
def mirrorAdd (padded : ℕ) (decoded : Option (List α)) (cb : List (List α)) (idxs : List ℤ) :
    Except PyErr (Option (List α)) :=
  (takeRows cb idxs).bind fun rows =>
    let part := rows.flatten.take padded
    match decoded with
    | none => .ok (some part)
    | some decoded => (broadcastMatrix (· + ·) 1 decoded.length decoded 1 part.length part).map some

/-- The stage sum of the mirror. -/
def mirrorSum (codebooks : List (List (List α))) (consts : DecodeConsts α) : Except PyErr (List α) :=
  ((codebooks.zip consts.stages).foldlM (fun decoded p =>
    mirrorAdd consts.padded decoded p.1 p.2.indices) none).bind fun decoded =>
    match decoded with
    | none => .error .typeError
    | some decoded => .ok decoded

/-- The un-rotation of the mirror, with `_fwht_autograd` in place of the block transform. -/
def mirrorRotation (consts : DecodeConsts α) (decoded : List α) : Except PyErr (List α) :=
  match consts.q, consts.hadamardBlock with
  | some q, _ => (reshape consts.rows consts.cols (decoded.take (consts.rows * consts.cols))).map fun mat =>
      matmulT consts.rows consts.cols consts.cols mat.flatten q
  | none, some b =>
    if b = 0 then .error .zeroDivisionError
    else (reshape (consts.rows * (consts.cols / b)) b (decoded.take (consts.rows * consts.cols))).bind fun mat =>
      (fwht num .torch b mat).map List.flatten
  | none, none => .ok decoded

/-- The block scales of the mirror, which pads for itself. -/
def mirrorBlockScales (consts : DecodeConsts α) (decoded : List α) : Except PyErr (List α) :=
  match consts.blockScales with
  | none => .ok decoded
  | some (scales, blockSize) => applyBlockScalesTorch decoded scales blockSize

/-- The column scales of the mirror. -/
def mirrorColScales (consts : DecodeConsts α) (decoded : List α) : Except PyErr (List α) :=
  match consts.awqCol with
  | none => .ok decoded
  | some awqCol => applyColScalesTorch decoded [consts.rows, consts.cols] awqCol

/-- `_differentiable_decode(codebooks, consts)`. -/
def differentiableDecode (codebooks : List (List (List α))) (consts : DecodeConsts α) : Except PyErr (List α) :=
  (mirrorSum codebooks consts).bind fun sum =>
    (mirrorInject consts.outliers (sum.take consts.packed)).bind fun decoded =>
      (mirrorInject consts.pillars decoded).bind fun decoded =>
        (mirrorRotation num consts decoded).bind fun decoded =>
          (mirrorBlockScales consts decoded).bind fun decoded =>
            (mirrorColScales consts decoded).bind fun decoded => mirrorInject consts.salient decoded

/-- The mirror applied to the stored codebooks. -/
def mirrorDecode : Except PyErr (List α) :=
  (loadDecodeConsts num store tm).bind fun consts =>
    differentiableDecode num (consts.stages.map StageConsts.codebook) consts

end Mirror

end Orka

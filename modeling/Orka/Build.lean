import Orka.Decode
import Orka.Planes
import Orka.Lib.Dict

/-!
# Building a layer from an artifact

`build_vq_linear`: the buffers of every stage, the block scales, the salient and outlier positions as a CSR correction against
what the stages and scales alone decode to, and the transposition to group-major order. Buffers of floats are binary16.
-/

namespace Orka

open Flat

section Copy

variable {β : Type}

/-- `buf.copy_(xs)` into a buffer of `n` values: as many values, or one for all of them. -/
def copyInto (n : ℕ) (xs : List β) : Except PyErr (List β) :=
  if xs.length = n then .ok xs
  else match xs with
    | [x] => .ok (List.replicate n x)
    | _ => .error (.runtimeError "The size of tensor a must match the size of tensor b")

/-- `buf.copy_(rows)` into a matrix of `r` rows and `c` columns. -/
def copyMatrix (r c : ℕ) (rows : List (List β)) : Except PyErr (List (List β)) := (rows.mapM (copyInto c)).bind (copyInto r)

/-- `xs[idxs]`: the values that a list of signed indices names. -/
def takeValues [Zero β] (xs : List β) (idxs : List ℤ) : Except PyErr (List β) :=
  idxs.mapM fun i => (axisIndex xs.length i).map (cell xs)

end Copy

/-- An index in its buffer: uint8, int16 or int32 by the size of the codebook. -/
def storeIndex (cbSize : ℕ) (i : ℤ) : ℤ :=
  if cbSize ≤ 256 then i % 2 ^ 8 else if cbSize ≤ 32768 then i.bmod (2 ^ 16) else i.bmod (2 ^ 32)

section Build

variable {α : Type} [Field α] [LinearOrder α] [IsStrictOrderedRing α] [FloorRing α]
variable (num : Numerics α) (store : Store α) (tm : TensorMeta)

/-- The index buffers of a stage: `indices_{s}`, or the two planes. -/
def registerIndices (nGroups cbSize : ℕ) (idxs : List ℤ) : Except PyErr (List ℤ × List ℕ × List ℕ) :=
  let width := planeWidth cbSize
  if width = 0 then (copyInto nGroups (idxs.map (storeIndex cbSize))).map fun idx => (idx, [], [])
  else (packIndexPlanes idxs width).bind fun (lo, hi) =>
    (copyInto nGroups lo).bind fun lo =>
      (copyInto (hiBytes nGroups width) hi).map fun hi => ([], lo, hi)

/-- One stage of `_register_layer_buffers`. -/
def registerStage (groupSize total : ℕ) (stage : StageMeta) : Except PyErr (StageBuffers α) :=
  let sGroup := stage.groupSize.getD groupSize
  if sGroup = 0 then .error .zeroDivisionError
  else
    (readIndices num store stage.indices stage.indexBits (ceilDiv total sGroup) (stage.packed.getD false)
      (stage.encoding.getD .raw)).bind fun idxs =>
      (readCodebook num store stage.codebook sGroup (stage.codebookDtype.getD .float16)).bind fun cb =>
        (registerIndices (ceilDiv total groupSize) stage.codebookSize idxs).bind fun (indices, lo, hi) =>
          (copyMatrix stage.codebookSize groupSize (cb.map (·.map Binary16.round16))).map fun codebook =>
            { planeWidth := planeWidth stage.codebookSize, indices := indices, lo := lo, hi := hi, codebook := codebook }

/-- The scale buffer of `_register_layer_buffers`, and the scales as they are read. -/
def registerScales (blockSize total : ℕ) : Except PyErr (List α × Option (List α)) :=
  let nScale := ceilDiv total blockSize
  if storesBlockScales tm.normalizationMode then
    (readScales num store tm).bind fun scalesFull =>
      let scales := scalesFull.take nScale
      (copyInto nScale (scales.map Binary16.round16)).map fun buf => (buf, some scales)
  else .ok (List.replicate nScale 1, none)

/-- `_scale_at(flat_pos)`. -/
def scaleAt (scales : Option (List α)) (blockSize : ℕ) (positions : List ℕ) : Except PyErr (List α) :=
  match scales with
  | none => .ok (positions.map fun _ => 1)
  | some ss => takeValues ss (positions.map fun p => ((p / blockSize : ℕ) : ℤ))

/-- One stage at flat positions: `cb_s[idxs_s, within_g]`. -/
def stageAt (groupSize : ℕ) (s : StageBuffers α) (positions : List ℕ) : Except PyErr (List α) :=
  (s.indicesInt).bind fun idxs =>
    (takeValues idxs (positions.map fun p => ((p / groupSize : ℕ) : ℤ))).bind fun at_ =>
      (takeRows s.codebook at_).bind fun rows =>
        (rows.zip positions).mapM fun w => (axisIndex w.1.length ((w.2 % groupSize : ℕ) : ℤ)).map (cell w.1)

/-- `_vq_decoded_at(flat_pos)`: the stages summed, times the scales. -/
def vqDecodedAt (groupSize blockSize : ℕ) (stages : List (StageBuffers α)) (scales : Option (List α)) (positions : List ℕ) :
    Except PyErr (List α) :=
  (stages.foldlM (fun dec s => (stageAt groupSize s positions).map fun vs => List.zipWith (· + ·) dec vs)
    (positions.map fun _ => 0)).bind fun dec =>
    match scales with
    | none => .ok dec
    | some _ => (scaleAt scales blockSize positions).map fun ss => List.zipWith (· * ·) dec ss

/-- The positions below `total` of a list, with their values. A negative position makes the row count fail later on. -/
def keptBelow (total : ℕ) (positions : List ℤ) (values : List α) : Except PyErr (List (ℕ × α)) :=
  if positions.length ≠ values.length then .error .indexError
  else
    let kept := (positions.zip values).filter fun w => decide (w.1 < (total : ℤ))
    if kept.any fun w => decide (w.1 < 0) then .error (.valueError "'list' argument must have no negative elements")
    else .ok (kept.map fun w => (w.1.toNat, w.2))

/-- The outliers as final values: what is stored, times the scale. -/
def outlierFinals (blockSize total : ℕ) (scales : Option (List α)) : Except PyErr (List (ℕ × α)) :=
  match tm.outliers with
  | none => .ok []
  | some outl =>
    if outl.count = 0 then .ok []
    else (readOutliersOf num store outl).bind fun (positions, values) =>
      (keptBelow total positions values).bind fun kept =>
        (scaleAt scales blockSize (kept.map Prod.fst)).map fun ss =>
          (kept.map Prod.fst).zip (List.zipWith (· * ·) (kept.map Prod.snd) ss)

/-- The salient values as final values: what is stored. -/
def salientFinals (blockSize total : ℕ) : Except PyErr (List (ℕ × α)) :=
  match tm.salient with
  | none => .ok []
  | some salient =>
    if salient.count = 0 then .ok []
    else (readSalientOf num store salient).bind fun (sIdxRaw, sValRaw) =>
      let nScale := ceilDiv total blockSize
      keptBelow total (salientPositions blockSize (sIdxRaw.take nScale)) (sValRaw.take nScale)

/-- The CSR form of values at positions, stably sorted by row. -/
def toCsr (outFeatures inFeatures : ℕ) (deltas : List (ℕ × α)) : Csr α :=
  let sorted := deltas.mergeSort fun a b => decide (a.1 / inFeatures ≤ b.1 / inFeatures)
  let rows := sorted.map fun w => w.1 / inFeatures
  { rowptr := tabulate (outFeatures + 1) fun r => ((rows.countP fun row => decide (row < r) : ℕ) : ℤ),
    col := sorted.map fun w => ((w.1 % inFeatures : ℕ) : ℤ), val := sorted.map Prod.snd }

/-- `_build_csr_correction`: the deltas against what the stages and scales decode to. -/
def buildCsrCorrection (outFeatures inFeatures groupSize blockSize : ℕ) (stages : List (StageBuffers α))
    (scales : Option (List α)) : Except PyErr (Csr α) :=
  let total := outFeatures * inFeatures
  (outlierFinals num store tm blockSize total scales).bind fun outl =>
    (salientFinals num store tm blockSize total).bind fun salient =>
      let finalVals := Dict.update (Dict.update [] outl) salient
      if finalVals.isEmpty then .ok ⟨List.replicate (outFeatures + 1) 0, [], []⟩
      else
        (vqDecodedAt groupSize blockSize stages scales (finalVals.map Prod.fst)).map fun vqAt =>
          toCsr outFeatures inFeatures ((finalVals.map Prod.fst).zip
            (List.zipWith (fun final vq => Binary16.round16 (final - vq)) (finalVals.map Prod.snd) vqAt))

/-- `buf.view(r, c).t().contiguous().reshape(-1)` of a buffer of the right size. -/
def transposeView {β : Type} [Zero β] (r c : ℕ) (xs : List β) : List β := tabulate (c * r) fun i => cell xs (i % r * c + i / r)

/-- `_to_group_major`. -/
def toGroupMajor (layer : VQLinear α) : VQLinear α :=
  if layer.planed then layer
  else if layer.groupSize = 0 ∨ layer.blockSize = 0 then layer
  else if layer.inFeatures % layer.groupSize = 0 ∧ layer.inFeatures % layer.blockSize = 0 then
    let gpr := layer.inFeatures / layer.groupSize
    let bpr := layer.inFeatures / layer.blockSize
    if (∀ s ∈ layer.stages, s.indices.length = layer.outFeatures * gpr) ∧
        layer.scales.length = layer.outFeatures * bpr then
      { layer with
        stages := layer.stages.map fun s => { s with indices := transposeView layer.outFeatures gpr s.indices },
        scales := transposeView layer.outFeatures bpr layer.scales, groupMajor := true }
    else layer
  else layer

/-- The stages of an entry, or one stage from the fields of the tensor, as `build_vq_linear` takes them. -/
def buildStages : List StageMeta :=
  if tm.stages.isEmpty then
    [{ codebook := tm.codebook, codebookSize := tm.codebookSize, indexBits := tm.indexBits, indices := tm.indices }]
  else tm.stages

/-- `build_vq_linear(artifact_dir, tensor_meta, bias, device)`. -/
def buildVqLinear (bias : Option (List α)) : Except PyErr (VQLinear α) :=
  (rowsCols tm.shape).bind fun (outFeatures, inFeatures) =>
    let total := outFeatures * inFeatures
    if tm.groupSize = 0 then .error .zeroDivisionError
    else
      ((buildStages tm).mapM (registerStage num store tm.groupSize total)).bind fun stages =>
        (registerScales num store tm tm.blockSize total).bind fun (scalesBuf, scales) =>
          (buildCsrCorrection num store tm outFeatures inFeatures tm.groupSize tm.blockSize stages scales).map fun corr =>
            toGroupMajor
              { outFeatures := outFeatures, inFeatures := inFeatures, groupSize := tm.groupSize, blockSize := tm.blockSize,
                stages := stages, scales := scalesBuf, corr := corr, corrSpCache := none,
                bias := bias.map (·.map Binary16.round16), groupMajor := false, n1Ok := none }

end Build

end Orka

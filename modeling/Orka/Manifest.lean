import Orka.Normalize
import Orka.Rotate

/-!
# Manifest entries

What the manifest records of one packed tensor, as far as the readers of an artifact look at it. A field that is read with a
default is optional; a reader's default is in its own definition.
-/

namespace Orka

/-- One entry of `stages`. -/
structure StageMeta where
  codebook : String
  codebookSize : ℕ
  codebookDtype : Option CodebookDtype := none
  indexBits : ℕ
  packed : Option Bool := none
  encoding : Option Encoding := none
  indices : String
  groupSize : Option ℕ := none
  deriving DecidableEq

/-- `awq_col_scales`. -/
structure VectorMeta where
  path : String
  count : ℕ
  dtype : Option FloatDtype := none
  deriving DecidableEq

/-- `outliers`. -/
structure OutlierMeta where
  count : ℕ
  positions : String
  values : String
  positionsDtype : Option UnsignedDtype := none
  valuesDtype : Option FloatDtype := none
  deriving DecidableEq

/-- `pillars`. -/
structure PillarMeta where
  positions : String
  values : String
  deriving DecidableEq

/-- `salient`. -/
structure SalientMeta where
  count : ℕ
  indices : String
  weights : String
  indicesBits : ℕ
  weightsDtype : Option FloatDtype := none
  deriving DecidableEq

/-- `lowrank`. -/
structure LowrankMeta where
  rank : ℕ
  dtype : Option FloatDtype := none
  a : String
  b : String
  deriving DecidableEq

/-- The entry of one tensor. -/
structure TensorMeta where
  name : String
  shape : List ℕ
  packedValues : ℕ
  paddedValues : ℕ
  groupSize : ℕ
  stages : List StageMeta
  codebook : String
  codebookSize : ℕ
  indexBits : ℕ
  indices : String
  normalization : Option Normalization := none
  scales : Option String := none
  scaleCount : ℕ := 0
  scaleDtype : Option FloatDtype := none
  blockScaleSize : Option ℕ := none
  awqColScales : Option VectorMeta := none
  outliers : Option OutlierMeta := none
  pillars : Option PillarMeta := none
  salient : Option SalientMeta := none
  rotationSeed : Option ℕ := none
  rotation : Option Rotation := none
  lowrank : Option LowrankMeta := none
  deriving DecidableEq

/-- `int(tensor_meta.get("block_scale_size") or 32)`. -/
def TensorMeta.blockSize (tm : TensorMeta) : ℕ :=
  match tm.blockScaleSize with
  | none | some 0 => 32
  | some b => b

theorem TensorMeta.blockSize_pos (tm : TensorMeta) : 0 < tm.blockSize := by
  rcases hb : tm.blockScaleSize with _ | _ | b <;> simp only [TensorMeta.blockSize, hb] <;> omega

/-- `tensor_meta.get("rotation", "none")`. -/
def TensorMeta.rotationMode (tm : TensorMeta) : Rotation := tm.rotation.getD .none

/-- `int(tensor_meta.get("rotation_seed") or 0)`. -/
def TensorMeta.seed (tm : TensorMeta) : ℕ := tm.rotationSeed.getD 0

/-- `tensor_meta.get("normalization", "none")`. -/
def TensorMeta.normalizationMode (tm : TensorMeta) : Normalization := tm.normalization.getD .none

section Reading

variable {α : Type} (num : Numerics α) (store : Store α) (tm : TensorMeta)

/-- `_read_float_vector(out_dir / tm["scales"], int(tm["scale_count"]), tm.get("scale_dtype") or "float32")`. -/
def readScales : Except PyErr (List α) :=
  match tm.scales with
  | none => .error .typeError
  | some path => readFloatVector num store path tm.scaleCount (tm.scaleDtype.getD .float32)

/-- The awq column scales of an `awq_col_scales` field. -/
def readAwqColScales (awqMeta : VectorMeta) : Except PyErr (List α) :=
  readFloatVector num store awqMeta.path awqMeta.count (awqMeta.dtype.getD .float32)

/-- The positions and values of an `outliers` field. -/
def readOutliersOf (outl : OutlierMeta) : Except PyErr (List ℤ × List α) :=
  readOutliers num store outl.positions outl.values outl.count (outl.positionsDtype.getD .uint32)
    (outl.valuesDtype.getD .float32)

/-- The positions and values of a `pillars` field. -/
def readPillarsOf (pillars : PillarMeta) : Except PyErr (List ℤ × List α) :=
  readPillars num store pillars.positions pillars.values

/-- The block indices and weights of a `salient` field. -/
def readSalientOf (salient : SalientMeta) : Except PyErr (List ℤ × List α) :=
  readSalient num store salient.indices salient.weights salient.count salient.indicesBits
    (salient.weightsDtype.getD .float32)

/-- `_resolve_stages(tm, group_size)`: the stages, or one stage from the fields of the tensor. -/
def resolveStages : List StageMeta :=
  if tm.stages.isEmpty then
    [{ codebook := tm.codebook, codebookSize := tm.codebookSize, indexBits := tm.indexBits, indices := tm.indices }]
  else tm.stages

/-- `_read_stage_arrays(out_dir, stage, group_size, padded_values)`. -/
def readStageArrays [Ring α] (stage : StageMeta) (groupSize paddedValues : ℕ) :
    Except PyErr (List (List α) × List ℤ) :=
  let sGroupSize := stage.groupSize.getD groupSize
  if sGroupSize = 0 then .error .zeroDivisionError
  else
    let sIndexCount := Flat.ceilDiv paddedValues sGroupSize
    (readCodebook num store stage.codebook sGroupSize (stage.codebookDtype.getD .float32)).bind fun cb =>
      (readIndices num store stage.indices stage.indexBits sIndexCount (stage.packed.getD false)
        (stage.encoding.getD .raw)).map fun idxs => (cb, idxs)

/-- `_read_lowrank(out_dir, lr_meta)`: the rows of `a` and of `b`. -/
def readLowrank (lr : LowrankMeta) : Except PyErr (List (List α) × List (List α)) :=
  (readFloats num store lr.a (lr.dtype.getD .float16)).bind fun a =>
    (readFloats num store lr.b (lr.dtype.getD .float16)).bind fun b =>
      (reshapeAuto lr.rank a).bind fun a => (reshapeAuto lr.rank b).map fun b => (a, b)

end Reading

end Orka

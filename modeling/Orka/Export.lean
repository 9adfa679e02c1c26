import Orka.Build

/-!
# Exporting to GGUF

`artifact/export_gguf.py`: a linear tensor goes into the file as the indices, the codebook of every stage and the block scales of its
layer, any other tensor as its decoded values; `dequant_linear` is the reference for reading a linear tensor back.
-/

namespace Orka

open Flat

/-- `x.astype(np.int16)`. -/
def toInt16 (x : ℤ) : ℤ := x.bmod (2 ^ 16)

/-- A linear tensor in the file: `{name}.idx{s}`, `{name}.cb{s}`, `{name}.scales` and the metadata under its name. -/
structure GgufLinear (α : Type) where
  idxStages : List (List ℤ)
  codebooks : List (List (List α))
  scales : List α
  outFeatures : ℕ
  inFeatures : ℕ
  groupSize : ℕ
  blockSize : ℕ
  groupMajor : Bool
  deriving DecidableEq

/-- What the file holds of one tensor. -/
inductive GgufTensor (α : Type) where
  | dense (values : List α)
  | linear (linear : GgufLinear α)

section Export

variable {α : Type}

/-- The tensors a layer is written as. Its codebooks and scales are binary16 already. -/
def exportLinear (layer : VQLinear α) : Except PyErr (GgufLinear α) :=
  (layer.stages.mapM StageBuffers.indicesInt).map fun idxs =>
    { idxStages := idxs.map (·.map toInt16), codebooks := layer.stages.map StageBuffers.codebook, scales := layer.scales,
      outFeatures := layer.outFeatures, inFeatures := layer.inFeatures, groupSize := layer.groupSize, blockSize := layer.blockSize,
      groupMajor := layer.groupMajor }

/-- `xs.reshape(q, M).T if group_major else xs.reshape(M, q)`, flattened. -/
def storedRows {β : Type} [Zero β] (groupMajor : Bool) (m q : ℕ) (xs : List β) : Except PyErr (List β) :=
  if groupMajor then (reshape q m xs).map fun _ => transposeView q m xs else (reshape m q xs).map List.flatten

/-- `dequant_linear`, flattened. -/
def dequantLinear [Ring α] (d : GgufLinear α) : Except PyErr (List α) :=
  if d.groupSize = 0 ∨ d.blockSize = 0 then .error .zeroDivisionError
  else
    let gpr := d.inFeatures / d.groupSize
    let bpr := d.inFeatures / d.blockSize
    ((d.idxStages.zip d.codebooks).foldlM (fun w stage =>
      (storedRows d.groupMajor d.outFeatures gpr stage.1).bind fun i => (takeRows stage.2 i).bind fun rows =>
        (reshape d.outFeatures (gpr * d.groupSize) rows.flatten).bind fun mat => addInto w mat.flatten)
      (List.replicate (d.outFeatures * (gpr * d.groupSize)) 0)).bind fun w =>
      (storedRows d.groupMajor d.outFeatures bpr d.scales).bind fun sc =>
        (reshape (d.outFeatures * bpr) d.blockSize w).bind fun blocks =>
          (broadcastMatrix (· * ·) (d.outFeatures * bpr) d.blockSize blocks.flatten (d.outFeatures * bpr) 1 sc).map fun scaled =>
            (rowsOf d.outFeatures (gpr * d.groupSize) scaled).flatMap (·.take d.inFeatures)

end Export

section Entry

variable {α : Type} [Field α] [LinearOrder α] [IsStrictOrderedRing α] [FloorRing α]

/-- `is_linear`. -/
def isLinear (tm : TensorMeta) : Bool :=
  -- a part that does not occur leaves the name in one piece
  tm.name.endsWith ".weight" && (tm.name.splitOn "embed").length == 1 && (tm.name.splitOn "lm_head").length == 1 &&
    tm.shape.length == 2

/-- One round of the loop of `export_gguf`. -/
def exportTensor (num : Numerics α) (store : Store α) (tm : TensorMeta) : Except PyErr (GgufTensor α) :=
  if isLinear tm then
    (buildVqLinear num store tm none).bind fun layer => (exportLinear layer).map .linear
  else
    (decodeTensor num store tm).bind fun values =>
      if values.length = tm.shape.prod then .ok (.dense (values.map Binary16.round16))
      else .error (.valueError "cannot reshape array")

end Entry

end Orka

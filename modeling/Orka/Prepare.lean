import Orka.Decode

/-!
# Preparing a tensor for quantization

What the producer thread of `pack_checkpoint` does to one candidate before its stages are learned: normalization, rotation and
the cut into vectors. `restore` is the inverse chain of `_decode_tensor` on the arrays the producer holds in memory.
-/

namespace Orka

open Flat

/-- The configuration of one tensor: the run's, with the overrides of the allocation map and the group size of its family
already resolved. -/
structure PrepareConfig (α : Type) where
  backend : Backend
  normalization : Normalization
  rotation : Rotation
  rotationSeed : ℕ
  groupSize : ℕ
  blockScaleSize : ℕ
  slrqSalient : Bool
  awqActivations : Option (List (List α)) := none
  awqAlpha : α
  maxValuesPerTensor : Option ℕ := none

/-- A candidate, as it is put on the prefetch queue. -/
structure Candidate (α : Type) where
  name : String
  shape : List ℕ
  sourceFlat : List α
  packedValues : ℕ
  paddedValues : ℕ
  vectors : List (List α)
  rowScales : Option (List α)
  awqColScales : Option (List α)
  salientWeights : Option (List α)
  salientIndices : Option (List ℕ)
  normalization : Normalization
  blockScaleSize : Option ℕ
  rotationSeed : Option ℕ
  rotation : Rotation
  groupSize : ℕ

section Prepare

variable {α : Type} [Field α] [LinearOrder α] [IsStrictOrderedRing α] [FloorRing α]

/-- `_numpy_vectors_from_tensor(tensor, group_size, limit)` and its torch twin: the number of values, the number with the
padding, and the vectors. -/
def vectorsFromTensor (tensor : List α) (groupSize : ℕ) (limit : Option ℕ) :
    Except PyErr (ℕ × ℕ × List (List α)) :=
  if groupSize = 0 then .error .zeroDivisionError
  else
    let flat := match limit with
      | none => tensor
      | some n => tensor.take n
    let remainder := flat.length % groupSize
    let padded := if remainder ≠ 0 then flat ++ List.replicate (groupSize - remainder) 0 else flat
    (reshapeAuto groupSize padded).map fun vectors => (flat.length, padded.length, vectors)

/-- The body of `_prefetch_worker` for one tensor. -/
def prepare (num : Numerics α) (cfg : PrepareConfig α) (name : String) (shape : List ℕ) (tensor : List α) :
    Except PyErr (Candidate α) :=
  (applyNormalization num cfg.backend cfg.normalization shape tensor cfg.awqActivations cfg.awqAlpha cfg.blockScaleSize
    cfg.slrqSalient).bind fun res =>
    (rotateTensorTo2d num cfg.backend name cfg.rotation cfg.rotationSeed shape res.tensor).bind fun (rotated, seed) =>
      (vectorsFromTensor rotated cfg.groupSize cfg.maxValuesPerTensor).map fun (packedValues, paddedValues, vectors) =>
        { name := name, shape := shape, sourceFlat := res.sourceFlat, packedValues := packedValues,
          paddedValues := paddedValues, vectors := vectors, rowScales := res.rowScales, awqColScales := res.awqColScales,
          salientWeights := res.salientWeights, salientIndices := res.salientIndices,
          normalization := cfg.normalization,
          blockScaleSize := if storesBlockScales cfg.normalization then some cfg.blockScaleSize else none,
          rotationSeed := seed, rotation := cfg.rotation, groupSize := cfg.groupSize }

/-- The un-rotation of `_decode_tensor`, on a candidate. -/
def Candidate.unrotate (num : Numerics α) (c : Candidate α) (decoded : List α) : Except PyErr (List α) :=
  match c.rotation with
  | .none => .ok decoded
  | rotation => unrotateFlat num decoded c.shape rotation (c.rotationSeed.getD 0)

/-- The block scales of `_decode_tensor`, on a candidate of one of the three block modes or of none. -/
def Candidate.rescale (c : Candidate α) (decoded : List α) : Except PyErr (List α) :=
  match c.rowScales, c.blockScaleSize with
  | some scales, some blockSize => applyBlockScales .numpy decoded scales blockSize
  | _, _ => .ok decoded

/-- The salient values of `_decode_tensor`, on a candidate. -/
def Candidate.reinject (c : Candidate α) (decoded : List α) : Except PyErr (List α) :=
  match c.salientIndices, c.salientWeights, c.blockScaleSize with
  | some sIdx, some sVal, some blockSize => injectSalient decoded (ints sIdx) sVal blockSize
  | _, _, _ => .ok decoded

/-- The inverse chain of `_decode_tensor` on unquantized vectors and the captured sidecars: truncate the padding, un-rotate,
multiply the block scales, re-inject the salient values. -/
def Candidate.restore (num : Numerics α) (c : Candidate α) : Except PyErr (List α) :=
  (c.unrotate num (c.vectors.flatten.take c.packedValues)).bind fun decoded =>
    (c.rescale decoded).bind fun decoded => c.reinject decoded

/-- The positions a candidate holds as salient values. -/
def Candidate.salientPositions (c : Candidate α) : List ℕ :=
  match c.salientIndices, c.blockScaleSize with
  | some sIdx, some blockSize => tabulate sIdx.length fun b => b * blockSize + cell sIdx b
  | _, _ => []

end Prepare

end Orka

import Orka.Format

/-!
# Writing files

The writers of the layout, each as the file it leaves and the number format it reports. zlib is a parameter: what an index
stream compresses to decides whether it is kept.
-/

namespace Orka

open Flat

section Writers

variable {α : Type} [Field α] [LinearOrder α] [FloorRing α]

/-- `_compact_float_dtype(values, "float16")`. -/
def compactFloatDtype (values : List α) : FloatDtype := if fp16Max < maxAbs values then .float32 else .float16

/-- `values.astype(dtype)`. -/
def castFloats (dtype : FloatDtype) (values : List α) : List α :=
  match dtype with
  | .float16 => values.map Binary16.round16
  | .float32 => values

/-- `_write_float_vector(path, values)`: the file and its format. -/
def writeFloatVector (values : List α) : File α × FloatDtype :=
  (.floats (compactFloatDtype values) (castFloats (compactFloatDtype values) values), compactFloatDtype values)

/-- `_smallest_unsigned_dtype(max_value)`. -/
def smallestUnsignedDtype (maxValue : ℕ) : UnsignedDtype :=
  if maxValue ≤ 255 then .uint8 else if maxValue ≤ 65535 then .uint16 else if maxValue ≤ 4294967295 then .uint32 else .uint64

/-- `np.diff(positions, prepend=0)` of sorted positions. -/
def diff : ℕ → List ℕ → List ℕ
  | _, [] => []
  | prev, p :: ps => (p - prev) :: diff p ps

/-- What `_write_outliers` leaves: the gaps between the sorted positions, the values in the same order, and the two formats. -/
structure OutlierFiles (α : Type) where
  positions : File α
  values : File α
  positionsDtype : UnsignedDtype
  valuesDtype : FloatDtype

/-- `_write_outliers(idx_path, val_path, positions, values)`. -/
def writeOutliers (outliers : List (ℕ × α)) : OutlierFiles α :=
  let sorted := outliers.mergeSort fun v w => v.1 ≤ w.1
  let delta := diff 0 (sorted.map Prod.fst)
  let positionsDtype := smallestUnsignedDtype (delta.foldr max 0)
  let values := writeFloatVector (sorted.map Prod.snd)
  ⟨.unsigned positionsDtype delta, values.1, positionsDtype, values.2⟩

/-- `_write_salient(idx_path, val_path, salient_indices, salient_weights, index_bits)`: the two files and the weights' format. -/
def writeSalient (salientIndices : List ℕ) (salientWeights : List α) (indexBits : ℕ) :
    Except PyErr (File α × File α × FloatDtype) :=
  (packIndices salientIndices indexBits packChunkIndices).map fun bytes =>
    let weights := writeFloatVector salientWeights
    (.unsigned .uint8 bytes, weights.1, weights.2)

end Writers

/-! ## Index streams -/

/-- The codec an index stream is written with when none is forced: zlib if it shrinks the bytes. -/
def pickEncoding (compress : List ℕ → List ℕ) (raw : List ℕ) : Encoding :=
  if (compress raw).length < raw.length then .zlib else .raw

/-- `path.stat().st_size` of an index stream. -/
def streamBytes (compress : List ℕ → List ℕ) (encoding : Encoding) (raw : List ℕ) : ℕ :=
  match encoding with
  | .zlib => (compress raw).length
  | .raw => raw.length

/-- `_write_stage_indices(path, indices, index_bits, stage_meta)` on the bytes of the indices: the file, and the encoding that
the metadata records from then on. -/
def writeStageIndices {α : Type} (compress : List ℕ → List ℕ) (raw : List ℕ) (recorded : Option Encoding) : File α × Encoding :=
  (.stream (recorded.getD (pickEncoding compress raw)) raw, recorded.getD (pickEncoding compress raw))

end Orka

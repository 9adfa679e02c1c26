import Orka.Runtime
import Orka.Lib.BitStream
import Orka.Lib.Binary16

/-!
# The on-disk layout

`_pack_indices` and `_unpack_indices` write and read a list of indices at an exact bit width, chunk by chunk. Bytes and bits
are numbers, unsigned 64-bit arithmetic is taken modulo `2 ^ 64`. Float sidecars are rounded to binary16 when they are
captured, unless one of their values is too large for it.
-/

namespace Orka

open Flat BitStream

/-- `_index_bits_for_size`. -/
def indexBitsForSize (codebookSize : ℕ) : ℕ := if 1 < codebookSize then (codebookSize - 1).log2 + 1 else 1

/-- Indices per packing chunk. -/
def packChunkIndices : ℕ := 1 <<< 22

/-- `((seg[:, None] >> shifts) & 1).reshape(-1)` with the shifts from `bits - 1` down to 0. -/
def bitmat (bits : ℕ) (seg : List ℕ) : List ℕ := (seg.map fun v => tabulate bits fun j => (v >>> (bits - 1 - j)) &&& 1).flatten

/-- The chunks of `_pack_indices`, each written into `out` from `pos` on. -/
def packLoop (arr : List ℕ) (bits chunkRows : ℕ) : List ℕ → List ℕ → ℕ → Except PyErr (List ℕ)
  | [], out, _ => .ok out
  | i :: starts, out, pos =>
    let packed := packBytes (bitmat bits (slice arr i (i + chunkRows)))
    (setSlice out pos (pos + packed.length) packed).bind fun out =>
      packLoop arr bits chunkRows starts out (pos + packed.length)

/-- `_pack_indices(indices, bits, chunk_rows)`. -/
def packIndices (indices : List ℕ) (bits chunkRows : ℕ) : Except PyErr (List ℕ) :=
  let n := indices.length
  if n = 0 then .ok []
  else (pyRange n chunkRows).bind fun starts =>
    packLoop indices bits chunkRows starts (List.replicate ((n * bits + 7) / 8) 0) 0

/-- `(row * weights).sum().astype(np.int64)` with the weights `1 << (bits - 1), ..., 1 << 0`, in unsigned 64-bit arithmetic. -/
def rowValue (bits : ℕ) (row : List ℕ) : ℤ :=
  toInt64 (((List.range bits).map fun j => cell row j * (1 <<< (bits - 1 - j))).sum % 2 ^ 64)

/-- The chunks of `_unpack_indices`, each read from the bytes that hold it. -/
def unpackLoop (raw : List ℕ) (bits count chunkRows : ℕ) : List ℕ → List ℤ → Except PyErr (List ℤ)
  | [], out => .ok out
  | i :: starts, out =>
    let j := min (i + chunkRows) count
    let byteLo := i * bits / 8
    let byteHi := (j * bits + 7) / 8
    let bitsChunk := (unpackBytes (slice raw byteLo byteHi)).take ((j - i) * bits)
    (reshape (j - i) bits bitsChunk).bind fun rows =>
      (setSlice out i j (rows.map (rowValue bits))).bind fun out => unpackLoop raw bits count chunkRows starts out

/-- `_unpack_indices(packed, bits, count, chunk_rows)`. -/
def unpackIndices (packed : List ℕ) (bits count chunkRows : ℕ) : Except PyErr (List ℤ) :=
  if count = 0 then .ok []
  else (pyRange count chunkRows).bind fun starts => unpackLoop packed bits count chunkRows starts (List.replicate count 0)

/-! ## Float sidecars -/

section Storage

variable {α : Type} [Field α] [LinearOrder α] [IsStrictOrderedRing α] [FloorRing α]

/-- `np.max(np.abs(values))`, zero on no values. -/
def maxAbs (values : List α) : α := values.foldr (fun v m => max |v| m) 0

/-- The largest finite binary16 number, `65504.0` in the overflow tests. -/
def fp16Max : α := 65504

/-- What one value of a vector becomes when the vector is stored: rounded to binary16, unless the vector overflows. -/
def storageRound (values : List α) (v : α) : α := if fp16Max < maxAbs values then v else Binary16.round16 v

/-- `_fp16_storage_roundtrip(values)`, on either backend. -/
def fp16StorageRoundtrip (values : List α) : List α := values.map (storageRound values)

end Storage

/-! ## Reading files -/

section Readers

variable {α : Type} (num : Numerics α) (store : Store α)

/-- The file at a path. -/
def openFile (path : String) : Except PyErr (File α) :=
  match store path with
  | some f => .ok f
  | none => .error (.fileNotFoundError path)

/-- `np.fromfile` or `np.frombuffer` at a float format. -/
def readFloats (path : String) (dtype : FloatDtype) : Except PyErr (List α) :=
  (openFile store path).map fun f => match f with
    | .floats d values => if d = dtype then values else num.misreadFloats dtype f
    | _ => num.misreadFloats dtype f

/-- `np.fromfile` or `np.frombuffer` at an unsigned format. -/
def readUnsigned (path : String) (dtype : UnsignedDtype) : Except PyErr (List ℕ) :=
  (openFile store path).map fun f => match f with
    | .unsigned d values => if d = dtype then values else num.misreadUnsigned dtype f
    | _ => num.misreadUnsigned dtype f

/-- The formats a codebook is stored at. -/
inductive CodebookDtype where
  | float16
  | float32
  | int8
  deriving DecidableEq, Repr

/-- The scales and the grid of an int8 codebook of width `groupSize`. -/
def readInt8 (path : String) (groupSize : ℕ) : Except PyErr (List α × List ℤ) :=
  (openFile store path).map fun f => match f with
    | .int8 scales q => if scales.length = groupSize then (scales, q) else num.misreadInt8 groupSize f
    | _ => num.misreadInt8 groupSize f

/-- `_read_codebook(path, group_size, dtype)`. -/
def readCodebook [Ring α] (path : String) (groupSize : ℕ) (dtype : CodebookDtype) : Except PyErr (List (List α)) :=
  match dtype with
  | .int8 => (readInt8 num store path groupSize).bind fun (scales, q) =>
      (reshapeAuto groupSize q).map fun rows => rows.map fun row => List.zipWith (fun (v : ℤ) s => v * s) row scales
  | .float16 => (readFloats num store path .float16).bind (reshapeAuto groupSize)
  | .float32 => (readFloats num store path .float32).bind (reshapeAuto groupSize)

/-- `_read_float_vector(path, expected_count, dtype)`. -/
def readFloatVector (path : String) (expectedCount : ℕ) (dtype : FloatDtype) : Except PyErr (List α) :=
  (readFloats num store path dtype).bind fun arr =>
    if arr.length ≠ expectedCount then
      .error (.valueError s!"float vector size mismatch for {path}: expected {expectedCount}, got {arr.length}")
    else .ok arr

/-- `_index_bit_spec(index_bits)`: the bytes of one index. -/
def indexBitSpec (indexBits : ℕ) : Except PyErr ℕ :=
  if indexBits ≤ 8 then .ok 1
  else if indexBits ≤ 16 then .ok 2
  else if indexBits ≤ 32 then .ok 4
  else if indexBits ≤ 64 then .ok 8
  else .error (.valueError s!"index_bits above 64 are not supported: got {indexBits}")

/-- `np.frombuffer(data, dtype)` for little-endian unsigned numbers of `k` bytes. -/
def fromLittleEndian (k : ℕ) (data : List ℕ) : Except PyErr (List ℕ) :=
  if data.length % k ≠ 0 then .error (.valueError "buffer size must be a multiple of element size")
  else .ok ((rowsOf (data.length / k) k data).map (Nat.ofDigits 256))

/-- `_read_indices(path, index_bits, expected_count, packed, encoding)`, as signed 64-bit integers. -/
def readIndices (path : String) (indexBits expectedCount : ℕ) (packed : Bool) (encoding : Encoding) :
    Except PyErr (List ℤ) :=
  (openFile store path).bind fun f =>
    let data : Except PyErr (List ℕ) := match f with
      | .stream e raw => if e = encoding then .ok raw else num.misreadStream encoding f
      | _ => num.misreadStream encoding f
    data.bind fun raw =>
      if packed then unpackIndices raw indexBits expectedCount packChunkIndices
      else (indexBitSpec indexBits).bind fun k => (fromLittleEndian k raw).bind fun arr =>
        if arr.length ≠ expectedCount then
          .error (.valueError s!"index count mismatch for {path}: expected {expectedCount}, got {arr.length}")
        else .ok (arr.map toInt64)

/-- `np.cumsum` of unsigned 64-bit values. -/
def cumsum (deltas : List ℕ) : List ℕ := tabulate deltas.length fun i => (deltas.take (i + 1)).sum % 2 ^ 64

/-- `_read_outliers(idx_path, val_path, count, position_dtype, value_dtype)`, positions as signed 64-bit integers. -/
def readOutliers (idxPath valPath : String) (count : ℕ) (positionDtype : UnsignedDtype) (valueDtype : FloatDtype) :
    Except PyErr (List ℤ × List α) :=
  (readUnsigned num store idxPath positionDtype).bind fun delta =>
    (readFloatVector num store valPath count valueDtype).bind fun values =>
      if delta.length ≠ values.length then
        .error (.valueError s!"outlier count mismatch: {delta.length} != {values.length}")
      else .ok ((cumsum delta).map toInt64, values)

/-- `_read_pillars(idx_path, val_path)`. -/
def readPillars (idxPath valPath : String) : Except PyErr (List ℤ × List α) :=
  (readUnsigned num store idxPath .uint32).bind fun positions =>
    (readFloats num store valPath .float16).map fun values => (positions.map toInt64, values)

/-- `_read_salient(idx_path, val_path, count, index_bits, weight_dtype)`. -/
def readSalient (idxPath valPath : String) (count indexBits : ℕ) (weightDtype : FloatDtype) :
    Except PyErr (List ℤ × List α) :=
  (readUnsigned num store idxPath .uint8).bind fun raw =>
    (unpackIndices raw indexBits count packChunkIndices).bind fun sIdx =>
      (readFloatVector num store valPath count weightDtype).map fun sVal => (sIdx, sVal)

end Readers

end Orka

import Orka.Decode

/-!
# The gate on an artifact

`verify_artifact` and the numpy decoder over the readers both call, and the readers on files of arbitrary bytes. Bytes are numbers,
as in `Orka.Format`.
-/

namespace Orka

open Flat

set_option linter.unusedSectionVars false

/-- The readers of a codebook, an index stream and the sidecars of an artifact. -/
structure Readers (α : Type) where
  readCodebook : String → ℕ → CodebookDtype → Except PyErr (List (List α))
  readIndices : String → ℕ → ℕ → Bool → Encoding → Except PyErr (List ℤ)
  readFloatVector : String → ℕ → FloatDtype → Except PyErr (List α)
  readOutliers : String → String → ℕ → UnsignedDtype → FloatDtype → Except PyErr (List ℤ × List α)
  readPillars : String → String → Except PyErr (List ℤ × List α)
  readSalient : String → String → ℕ → ℕ → FloatDtype → Except PyErr (List ℤ × List α)
  readLowrank : LowrankMeta → Except PyErr (List (List α) × List (List α))

/-! ## The decoder over its readers -/

section Decode

variable {α : Type} [Field α] [LinearOrder α] [IsStrictOrderedRing α] [FloorRing α]

namespace Readers

variable (r : Readers α) (num : Numerics α) (tm : TensorMeta)

/-- `_read_stage_arrays(out_dir, stage, group_size, padded_values)`. -/
def stageArrays (stage : StageMeta) (groupSize paddedValues : ℕ) : Except PyErr (List (List α) × List ℤ) :=
  let sGroupSize := stage.groupSize.getD groupSize
  if sGroupSize = 0 then .error .zeroDivisionError
  else
    let sIndexCount := ceilDiv paddedValues sGroupSize
    (r.readCodebook stage.codebook sGroupSize (stage.codebookDtype.getD .float32)).bind fun cb =>
      (r.readIndices stage.indices stage.indexBits sIndexCount (stage.packed.getD false) (stage.encoding.getD .raw)).map fun idxs =>
        (cb, idxs)

/-- One stage of the sum. -/
def addStage (acc : List α) (stage : StageMeta) : Except PyErr (List α) :=
  (r.stageArrays stage tm.groupSize tm.paddedValues).bind fun (cb, idxs) =>
    (takeRows cb idxs).bind fun rows => addInto acc rows.flatten

/-- The stage sum. -/
def sumStages : Except PyErr (List α) :=
  if tm.groupSize = 0 then .error .zeroDivisionError
  else (resolveStages tm).foldlM (r.addStage tm) (List.replicate (ceilDiv tm.paddedValues tm.groupSize * tm.groupSize) 0)

/-- The outlier step. -/
def putOutliers (decoded : List α) : Except PyErr (List α) :=
  match tm.outliers with
  | none => .ok decoded
  | some outl =>
    (r.readOutliers outl.positions outl.values outl.count (outl.positionsDtype.getD .uint32)
      (outl.valuesDtype.getD .float32)).bind fun (positions, values) =>
        if positions.isEmpty then .ok decoded else assignAt decoded positions values

/-- The pillar step. -/
def putPillars (decoded : List α) : Except PyErr (List α) :=
  match tm.pillars with
  | none => .ok decoded
  | some pillars => (r.readPillars pillars.positions pillars.values).bind fun (positions, values) =>
    if positions.isEmpty then .ok decoded else assignAt decoded positions values

/-- `_read_float_vector(out_dir / tm["scales"], int(tm["scale_count"]), scale_dtype)`. -/
def scales : Except PyErr (List α) :=
  match tm.scales with
  | none => .error .typeError
  | some path => r.readFloatVector path tm.scaleCount (tm.scaleDtype.getD .float32)

/-- The scale step. -/
def applyScales (decoded : List α) : Except PyErr (List α) :=
  match tm.normalizationMode with
  | .none => .ok decoded
  | .awq => (r.scales tm).bind fun scales => applyColScales .numpy decoded tm.shape scales
  | .blockMax | .channelBlockMax | .slrqBlock => (r.scales tm).bind fun scales => applyBlockScales .numpy decoded scales tm.blockSize
  | .awqBlockMax =>
    (r.scales tm).bind fun blockScales =>
      (applyBlockScales .numpy decoded blockScales tm.blockSize).bind fun decoded =>
        match tm.awqColScales with
        | none => .ok decoded
        | some awqMeta => (r.readFloatVector awqMeta.path awqMeta.count (awqMeta.dtype.getD .float32)).bind fun awqScales =>
          applyColScales .numpy decoded tm.shape awqScales

/-- The salient step. -/
def putSalient (decoded : List α) : Except PyErr (List α) :=
  match tm.salient with
  | none => .ok decoded
  | some salient =>
    (r.readSalient salient.indices salient.weights salient.count salient.indicesBits
      (salient.weightsDtype.getD .float32)).bind fun (sIdx, sVal) =>
        if sIdx.isEmpty then .ok decoded else injectSalient decoded sIdx sVal tm.blockSize

/-- The low-rank step. -/
def addLowrank (decoded : List α) : Except PyErr (List α) :=
  match tm.lowrank with
  | none => .ok decoded
  | some lr => (r.readLowrank lr).bind fun (a, b) => applyLowrankNumpy decoded tm.shape lr.rank a b

/-- `_decode_tensor(out_dir, tensor_meta)`. -/
def decodeTensor : Except PyErr (List α) :=
  (r.sumStages tm).bind fun sum => (r.putOutliers tm (sum.take tm.packedValues)).bind fun decoded =>
    (r.putPillars tm decoded).bind fun decoded => (decodeRotation num tm decoded).bind fun decoded =>
      (r.applyScales tm decoded).bind fun decoded => (r.putSalient tm decoded).bind fun decoded => r.addLowrank tm decoded

end Readers

/-- The readers of files that hold arrays. -/
def storeReaders (num : Numerics α) (store : Store α) : Readers α where
  readCodebook := readCodebook num store
  readIndices := readIndices num store
  readFloatVector := readFloatVector num store
  readOutliers := readOutliers num store
  readPillars := readPillars num store
  readSalient := readSalient num store
  readLowrank := readLowrank num store

/-- The decoder of `Orka.Decode` is the decoder over these readers. -/
theorem decodeTensor_eq_storeReaders (num : Numerics α) (store : Store α) (tm : TensorMeta) :
    decodeTensor num store tm = (storeReaders num store).decodeTensor num tm := rfl

end Decode

/-! ## The readers on bytes -/

/-- What the readers take from Python and numpy: `zlib.decompress`, and the number that the bytes of a float are. -/
structure Codec (α : Type) where
  decompress : List ℕ → Except PyErr (List ℕ)
  float : FloatDtype → List ℕ → α

/-- The bytes of the files of an artifact. -/
abbrev RawFiles := String → Option (List ℕ)

/-- The bytes of one value. -/
def FloatDtype.size : FloatDtype → ℕ
  | .float16 => 2
  | .float32 => 4

/-- The bytes of one value. -/
def UnsignedDtype.size : UnsignedDtype → ℕ
  | .uint8 => 1
  | .uint16 => 2
  | .uint32 => 4
  | .uint64 => 8

/-- `np.fromfile`: bytes after the last whole value are left out. -/
def fromFile {β : Type} (size : ℕ) (value : List ℕ → β) (data : List ℕ) : List β :=
  (rowsOf (data.length / size) size data).map value

/-- `np.frombuffer`, which takes whole values only. -/
def wholeBuffer {β : Type} (size : ℕ) (value : List ℕ → β) (data : List ℕ) : Except PyErr (List β) :=
  if data.length % size ≠ 0 then .error (.valueError "buffer size must be a multiple of element size")
  else .ok (fromFile size value data)

/-- `np.int8` of one byte. -/
def int8 (b : ℕ) : ℤ := (b : ℤ).bmod 256

section Bytes

variable {α : Type} [Ring α] (codec : Codec α) (files : RawFiles)

/-- `path.read_bytes()`. -/
def readBytes (path : String) : Except PyErr (List ℕ) :=
  match files path with
  | some data => .ok data
  | none => .error (.fileNotFoundError path)

/-- `_read_blob(path)`. -/
def readBlob (path : String) : Except PyErr (List ℕ) :=
  (readBytes files path).bind fun data =>
    match data with
    | [] => .ok []
    | 0 :: payload => .ok payload
    | 1 :: payload => codec.decompress payload
    | n :: _ => .error (.valueError s!"unknown sidecar codec {n} in {path}")

/-- `_read_codebook(path, group_size, dtype)`; the scales of an int8 codebook are broadcast over its rows. -/
def rawCodebook (path : String) (groupSize : ℕ) (dtype : CodebookDtype) : Except PyErr (List (List α)) :=
  (readBytes files path).bind fun raw =>
    match dtype with
    | .int8 =>
      (wholeBuffer 2 (codec.float .float16) (raw.take (groupSize * 2))).bind fun scales =>
        (reshapeAuto groupSize ((raw.drop (groupSize * 2)).map int8)).bind fun q =>
          (broadcastDim groupSize scales.length).map fun width => q.map fun row =>
            tabulate width fun j =>
              ((cell row (if groupSize = 1 then 0 else j) : ℤ) : α) * cell scales (if scales.length = 1 then 0 else j)
    | .float16 => reshapeAuto groupSize (fromFile 2 (codec.float .float16) raw)
    | .float32 => reshapeAuto groupSize (fromFile 4 (codec.float .float32) raw)

/-- `_read_indices(path, index_bits, expected_count, packed, encoding)`, as signed 64-bit integers. -/
def rawIndices (path : String) (indexBits expectedCount : ℕ) (packed : Bool) (encoding : Encoding) : Except PyErr (List ℤ) :=
  (readBytes files path).bind fun data =>
    let stream : Except PyErr (List ℕ) := match encoding with
      | .raw => .ok data
      | .zlib => codec.decompress data
    stream.bind fun data =>
      if packed then unpackIndices data indexBits expectedCount packChunkIndices
      else (indexBitSpec indexBits).bind fun k => (wholeBuffer k (Nat.ofDigits 256) data).bind fun arr =>
        if arr.length ≠ expectedCount then
          .error (.valueError s!"index count mismatch for {path}: expected {expectedCount}, got {arr.length}")
        else .ok (arr.map toInt64)

/-- `_read_float_vector(path, expected_count, dtype)`. -/
def rawFloatVector (path : String) (expectedCount : ℕ) (dtype : FloatDtype) : Except PyErr (List α) :=
  (readBlob codec files path).bind fun data => (wholeBuffer dtype.size (codec.float dtype) data).bind fun arr =>
    if arr.length ≠ expectedCount then
      .error (.valueError s!"float vector size mismatch for {path}: expected {expectedCount}, got {arr.length}")
    else .ok arr

/-- `_read_outliers(idx_path, val_path, count, position_dtype, value_dtype)`, positions as signed 64-bit integers. -/
def rawOutliers (idxPath valPath : String) (count : ℕ) (positionDtype : UnsignedDtype) (valueDtype : FloatDtype) :
    Except PyErr (List ℤ × List α) :=
  (readBlob codec files idxPath).bind fun data => (wholeBuffer positionDtype.size (Nat.ofDigits 256) data).bind fun delta =>
    (rawFloatVector codec files valPath count valueDtype).bind fun values =>
      if delta.length ≠ values.length then
        .error (.valueError s!"outlier count mismatch: {delta.length} != {values.length}")
      else .ok ((cumsum delta).map toInt64, values)

/-- `_read_pillars(idx_path, val_path)`. -/
def rawPillars (idxPath valPath : String) : Except PyErr (List ℤ × List α) :=
  (readBytes files idxPath).bind fun positions => (readBytes files valPath).map fun values =>
    ((fromFile 4 (Nat.ofDigits 256) positions).map toInt64, fromFile 2 (codec.float .float16) values)

/-- `_read_salient(idx_path, val_path, count, index_bits, weight_dtype)`. -/
def rawSalient (idxPath valPath : String) (count indexBits : ℕ) (weightDtype : FloatDtype) : Except PyErr (List ℤ × List α) :=
  (readBlob codec files idxPath).bind fun raw => (unpackIndices raw indexBits count packChunkIndices).bind fun sIdx =>
    (rawFloatVector codec files valPath count weightDtype).map fun sVal => (sIdx, sVal)

/-- `_read_lowrank(out_dir, lr_meta)`. -/
def rawLowrank (lr : LowrankMeta) : Except PyErr (List (List α) × List (List α)) :=
  let dtype := lr.dtype.getD .float16
  (readBytes files lr.a).bind fun a => (readBytes files lr.b).bind fun b =>
    (reshapeAuto lr.rank (fromFile dtype.size (codec.float dtype) a)).bind fun a =>
      (reshapeAuto lr.rank (fromFile dtype.size (codec.float dtype) b)).map fun b => (a, b)

/-- The readers of files of bytes. -/
def fileReaders : Readers α where
  readCodebook := rawCodebook codec files
  readIndices := rawIndices codec files
  readFloatVector := rawFloatVector codec files
  readOutliers := rawOutliers codec files
  readPillars := rawPillars codec files
  readSalient := rawSalient codec files
  readLowrank := rawLowrank codec files

end Bytes

/-! ## The gate -/

/-- What `verify_artifact` is given: the entries of the manifest, if there is one, and the other files. -/
structure RawArtifact where
  manifest : Option (List TensorMeta)
  files : RawFiles

/-- The part of an artifact a problem is about; a stage goes by its own entry. -/
inductive ArtifactPart where
  | manifest
  | stage (stage : StageMeta)
  | scales
  | passthrough
  deriving DecidableEq

/-- The error of a problem. -/
inductive GateFault where
  | missing
  | raised (exc : PyErr)
  | empty
  deriving DecidableEq

/-- One entry of `problems`. -/
structure GateProblem where
  name : String
  part : ArtifactPart
  error : GateFault
  deriving DecidableEq

/-- What `verify_artifact` returns. -/
structure ArtifactReport where
  ok : Bool
  tensors : ℕ
  checked : ℕ
  problems : List GateProblem
  deriving DecidableEq

namespace Readers

variable {α : Type} (r : Readers α)

/-- The length that the gate expects a tensor to be padded to. -/
def gatePadded (tm : TensorMeta) : ℕ := if tm.paddedValues ≠ 0 then tm.paddedValues else tm.packedValues

/-- The problems of the stages of one tensor. -/
def stageProblems (tm : TensorMeta) : List GateProblem :=
  (resolveStages tm).filterMap fun stage =>
    match r.stageArrays stage tm.groupSize (gatePadded tm) with
    | .ok _ => none
    | .error exc => some ⟨tm.name, .stage stage, .raised exc⟩

/-- The problems of the scales of one tensor. -/
def scaleProblems (tm : TensorMeta) : List GateProblem :=
  match tm.scales with
  | none => []
  | some path =>
    if path = "" then []
    else match r.readFloatVector path tm.scaleCount (tm.scaleDtype.getD .float32) with
      | .ok _ => []
      | .error exc => [⟨tm.name, .scales, .raised exc⟩]

/-- The loop over the tensors. -/
def scan (stopAfter : Option ℕ) : List TensorMeta → ℕ → List GateProblem → ℕ × List GateProblem
  | [], checked, problems => (checked, problems)
  | tm :: tensors, checked, problems =>
    let problems := problems ++ r.stageProblems tm ++ r.scaleProblems tm
    if stopAfter.any (· ≤ problems.length) then (checked + 1, problems) else scan stopAfter tensors (checked + 1) problems

end Readers

/-- `verify_artifact(artifact_dir, stop_after)`. -/
def verifyArtifact {α : Type} [Ring α] (codec : Codec α) (artifact : RawArtifact) (stopAfter : Option ℕ) : ArtifactReport :=
  match artifact.manifest with
  | none => ⟨false, 0, 0, [⟨"-", .manifest, .missing⟩]⟩
  | some tensors =>
    let (checked, problems) := (fileReaders codec artifact.files).scan stopAfter tensors 0 []
    let problems := problems ++
      if artifact.files "passthrough.safetensors" = some [] then [⟨"-", .passthrough, .empty⟩] else []
    ⟨problems.isEmpty, tensors.length, checked, problems⟩

/-! ## What the gate leaves out -/

/-- What `pack_checkpoint` writes into every entry, and `correct_artifact` leaves there: groups that pad the values, stages of
the group size and scalar stages, scales wherever there is a normalization, a Hadamard rotation on columns that admit one, and no
pillars, which are written as outliers. The values may be cut short of the shape. -/
structure WrittenEntry (tm : TensorMeta) : Prop where
  group_pos : 0 < tm.groupSize
  group_dvd : tm.groupSize ∣ tm.paddedValues
  packed_le : tm.packedValues ≤ tm.paddedValues
  shape : tm.shape ≠ []
  packed_le_shape : tm.packedValues ≤ tm.shape.prod
  widths : ∀ stage ∈ resolveStages tm, stage.groupSize.getD tm.groupSize = tm.groupSize ∨ stage.groupSize.getD tm.groupSize = 1
  pillars : tm.pillars = none
  scales : tm.normalizationMode ≠ .none → ∃ path, tm.scales = some path ∧ path ≠ ""
  hadamard : tm.rotationMode = .hadamard →
    0 < tm.shape.tail.prod ∧ ∃ b, hadamardBlockSize tm.shape.tail.prod hadamardMinBlock = .ok b

section Intact

variable {α : Type} [Ring α] (codec : Codec α) (files : RawFiles) (tm : TensorMeta)

/-- A sidecar of `count` floats. -/
def FloatSidecar (path : String) (count : ℕ) (dtype : FloatDtype) : Prop :=
  ∃ raw, readBlob codec files path = .ok raw ∧ raw.length = count * dtype.size

/-- The positions that the bytes of an outlier file stand for. -/
def outlierPositions (dtype : UnsignedDtype) (raw : List ℕ) : List ℤ :=
  (cumsum (fromFile dtype.size (Nat.ofDigits 256) raw)).map toInt64

/-- Every index of a stage names a row of its codebook. -/
def IndicesInRange : Prop :=
  ∀ stage ∈ resolveStages tm, ∀ cb idxs, (fileReaders codec files).stageArrays stage tm.groupSize tm.paddedValues = .ok (cb, idxs) →
    ∀ i ∈ idxs, -(cb.length : ℤ) ≤ i ∧ i < cb.length

/-- The outlier files have the length of the entry, and the positions lie among the values. -/
def OutliersIntact : Prop :=
  ∀ m, tm.outliers = some m → FloatSidecar codec files m.values m.count (m.valuesDtype.getD .float32) ∧
    ∃ raw, readBlob codec files m.positions = .ok raw ∧ raw.length = m.count * (m.positionsDtype.getD .uint32).size ∧
      ∀ p ∈ outlierPositions (m.positionsDtype.getD .uint32) raw, -(tm.packedValues : ℤ) ≤ p ∧ p < tm.packedValues

/-- The entry's scales are as many as the values have columns. -/
def ColumnsFit (count : ℕ) : Prop := tm.packedValues = tm.shape.prod ∧ count = tm.shape.tail.prod

/-- The entry's scales are as many as the values have blocks or columns, and the column scales that stand beside block scales are
there. -/
def ScalesFit : Prop :=
  match tm.normalizationMode with
  | .none => True
  | .awq => ColumnsFit tm tm.scaleCount
  | .blockMax | .channelBlockMax | .slrqBlock => tm.scaleCount = ceilDiv tm.packedValues tm.blockSize
  | .awqBlockMax => tm.scaleCount = ceilDiv tm.packedValues tm.blockSize ∧ ∀ m, tm.awqColScales = some m →
      FloatSidecar codec files m.path m.count (m.dtype.getD .float32) ∧ ColumnsFit tm m.count

/-- The salient files have the length of the entry, and the positions that lie among the values lie in them. -/
def SalientIntact : Prop :=
  ∀ m, tm.salient = some m → FloatSidecar codec files m.weights m.count (m.weightsDtype.getD .float32) ∧
    ∃ raw sIdx, readBlob codec files m.indices = .ok raw ∧ unpackIndices raw m.indicesBits m.count packChunkIndices = .ok sIdx ∧
      ∀ p ∈ salientPositions tm.blockSize sIdx, -(tm.packedValues : ℤ) ≤ p

/-- A file of a low-rank factor: whole rows, as many as `n` or such that they broadcast. -/
def FactorFits (path : String) (dtype : FloatDtype) (rank n : ℕ) : Prop :=
  ∃ raw k, files path = some raw ∧ raw.length / dtype.size = k * rank ∧ (n = k ∨ n = 1 ∨ k = 1)

/-- The low-rank factors fit the matrix. -/
def LowrankIntact : Prop :=
  ∀ lr, tm.lowrank = some lr → tm.packedValues = tm.shape.prod ∧ 0 < lr.rank ∧
    FactorFits files lr.a (lr.dtype.getD .float16) lr.rank tm.shape.headI ∧
      FactorFits files lr.b (lr.dtype.getD .float16) lr.rank tm.shape.tail.prod

/-- **What the gate leaves out.** -/
structure Intact : Prop where
  indices : IndicesInRange codec files tm
  outliers : OutliersIntact codec files tm
  rotation : tm.rotationMode ≠ .none → tm.packedValues = tm.shape.prod
  scales : ScalesFit codec files tm
  salient : SalientIntact codec files tm
  lowrank : LowrankIntact files tm

end Intact

end Orka

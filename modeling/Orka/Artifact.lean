import Orka.Lib.Journal
import Orka.Names
import Orka.Prefetch
import Orka.Prepare
import Orka.Writers

/-!
# What a pack writes

The files of a packed tensor and its manifest entry: the tasks handed to the background writer for its stages, the sidecars, and
the entry that records their paths. What quantization computes of a tensor is data here. A directory's files are a journal of
writes.
-/

namespace Orka

/-- One quantized stage: its codebook file, what its metadata says of it and the bytes of its greedy index stream. -/
structure StageResult (α : Type) where
  codebook : File α
  codebookSize : ℕ
  codebookDtype : CodebookDtype
  indexBits : ℕ
  indices : List ℕ
  groupSize : ℕ

/-- What a strategy after the stage loop rewrites: the index stream of every stage, or in every EM-AQ pass the codebook and the
index stream of the stages it learned anew. -/
inductive Refinement (α : Type) where
  | none
  | compensated (streams : List (List ℕ))
  | emAq (passes : List (List (Option (File α × List ℕ))))

/-- A candidate when it is finalized: its stages, one for each stage it has a spec of, and its escapes, where frequent tokens'
rows are merged with the outliers. -/
structure PackedTensor (α : Type) extends Candidate α where
  family : String
  stages : List (StageResult α)
  refinement : Refinement α
  outliers : List (ℕ × α)

/-- The configuration of a pack as far as its files depend on it. -/
structure PackConfig where
  mode : CodebookMode
  nStages : ℕ
  blockScaleSize : ℕ
  deriving DecidableEq, Repr

/-- `short_names and n_stages == 1`: only tensors that are streamed have short names. -/
def PackConfig.short (cfg : PackConfig) : Bool := cfg.mode = .perTensor ∧ cfg.nStages = 1

namespace PackedTensor

variable {α : Type} (cfg : PackConfig) (t : PackedTensor α)

/-- The path of one of the tensor's files. -/
def path (file : TensorFile) : String := tensorPath cfg.short (safeTensorName t.name) file

/-- The key of the shared codebook. -/
def sharedKey : String :=
  match cfg.mode with
  | .global => "global"
  | .perTensor | .family => t.family

/-- `cb_path` of a stage. -/
def codebookPath (stage : ℕ) : String :=
  match cfg.mode with
  | .perTensor => t.path cfg (.codebook stage)
  | .global | .family => sharedCodebookPath cfg.nStages (t.sharedKey cfg) stage

/-- The stages `for stage_i in range(n_stages)` comes to, each with its number. -/
def numberedStages : List (StageResult α × ℕ) := (t.stages.take cfg.nStages).zipIdx

end PackedTensor

/-! ## Stages -/

/-- A task of the background writer: `_write_codebook` or `_write_stage_indices` of one stage. -/
inductive Task (α : Type) where
  | codebook (path : String) (file : File α)
  | indices (stage : ℕ) (path : String) (raw : List ℕ)

/-- The file a task writes. -/
def Task.path {α : Type} : Task α → String
  | .codebook path _ | .indices _ path _ => path

section Tasks

variable {α : Type} (cfg : PackConfig) (t : PackedTensor α)

/-- The tasks `_quantize_and_record_stage` submits; a shared codebook has already been written. -/
def stageTasks (stage : StageResult α × ℕ) : List (Task α) :=
  let indices : Task α := .indices stage.2 (t.path cfg (.indices stage.2)) stage.1.indices
  match cfg.mode with
  | .perTensor => [.codebook (t.codebookPath cfg stage.2) stage.1.codebook, indices]
  | .global | .family => [indices]

/-- The tasks of one EM-AQ pass, which forms the long names itself. -/
def emAqTasks (pass : List (Option (File α × List ℕ))) : List (Task α) :=
  ((t.numberedStages cfg).zip pass).flatMap fun
    | ((_, stage), some (codebook, raw)) =>
      [.codebook (tensorPath false (safeTensorName t.name) (.codebook stage)) codebook,
        .indices stage (tensorPath false (safeTensorName t.name) (.indices stage)) raw]
    | (_, none) => []

/-- The tasks of the strategies. EM-AQ applies to packs of several stages; the batched modes apply none. -/
def refinementTasks : List (Task α) :=
  match cfg.mode, t.refinement with
  | .perTensor, .compensated streams =>
    ((t.numberedStages cfg).zip streams).map fun ((_, stage), raw) => .indices stage (t.path cfg (.indices stage)) raw
  | .perTensor, .emAq passes => if 1 < cfg.nStages then passes.flatMap (emAqTasks cfg t) else []
  | _, _ => []

/-- Every task of a tensor, in the order they are submitted. -/
def tensorTasks : List (Task α) := (t.numberedStages cfg).flatMap (stageTasks cfg t) ++ refinementTasks cfg t

/-- The encoding each stage's metadata records. -/
abbrev Encodings := ℕ → Option Encoding

/-- One task: the write it makes, and the encodings recorded after it. -/
def runTask (compress : List ℕ → List ℕ) (recorded : Encodings) : Task α → (String × File α) × Encodings
  | .codebook path file => ((path, file), recorded)
  | .indices stage path raw =>
    let (file, encoding) := writeStageIndices compress raw (recorded stage)
    ((path, file), Function.update recorded stage (some encoding))

/-- Tasks in a row: their writes, and the encodings recorded after them. -/
def runTasks (compress : List ℕ → List ℕ) : Encodings → List (Task α) → List (String × File α) × Encodings
  | recorded, [] => ([], recorded)
  | recorded, task :: tasks =>
    let (write, recorded) := runTask compress recorded task
    let (writes, recorded) := runTasks compress recorded tasks
    (write :: writes, recorded)

end Tasks

/-! ## Sidecars -/

section Sidecars

variable {α : Type} [Field α] [LinearOrder α] [FloorRing α] (cfg : PackConfig) (t : PackedTensor α)

/-- What `_persist_tensor_sidecars` writes and returns. -/
structure Sidecars (α : Type) where
  writes : List (String × File α)
  scales : Option String
  scaleCount : ℕ
  scaleDtype : Option FloatDtype
  awqColScales : Option VectorMeta
  outliers : Option OutlierMeta
  salient : Option SalientMeta

/-- The name of the scale file, by normalization. -/
def scaleFile (normalization : Normalization) : Option TensorFile :=
  if normalization = .awq then some .colScale else if storesBlockScales normalization then some .blockScale else none

/-- The scales: writes, path, count and format. -/
def persistScales : Except PyErr (List (String × File α) × Option String × ℕ × Option FloatDtype) :=
  match scaleFile t.normalization with
  | none => .ok ([], none, 0, none)
  | some file => match t.rowScales with
    | none => .error .typeError
    | some scales => .ok ([(t.path cfg file, (writeFloatVector scales).1)], some (t.path cfg file), scales.length,
        some (writeFloatVector scales).2)

/-- The awq column scales. -/
def persistAwqColScales : List (String × File α) × Option VectorMeta :=
  match t.awqColScales with
  | none => ([], none)
  | some scales =>
    if t.normalization = .awqBlockMax then
      ([(t.path cfg .awqColScale, (writeFloatVector scales).1)],
        some ⟨t.path cfg .awqColScale, scales.length, some (writeFloatVector scales).2⟩)
    else ([], none)

/-- The outliers. -/
def persistOutliers : List (String × File α) × Option OutlierMeta :=
  if t.outliers.isEmpty then ([], none)
  else
    let files := writeOutliers t.outliers
    ([(t.path cfg .outlierIdx, files.positions), (t.path cfg .outlierVal, files.values)],
      some ⟨t.outliers.length, t.path cfg .outlierIdx, t.path cfg .outlierVal, some files.positionsDtype,
        some files.valuesDtype⟩)

/-- The salient values. -/
def persistSalient : Except PyErr (List (String × File α) × Option SalientMeta) :=
  match t.salientIndices, t.salientWeights with
  | none, _ => .ok ([], none)
  | some _, none => .error .typeError
  | some indices, some weights =>
    let blockSize := match t.blockScaleSize with
      | none | some 0 => 32
      | some b => b
    (writeSalient indices weights (indexBitsForSize blockSize)).map fun (idx, val, dtype) =>
      ([(t.path cfg .salientIdx, idx), (t.path cfg .salientVal, val)],
        some ⟨weights.length, t.path cfg .salientIdx, t.path cfg .salientVal, indexBitsForSize blockSize, some dtype⟩)

/-- `_persist_tensor_sidecars(c, tensor_dir, out_dir)`. -/
def persistTensorSidecars : Except PyErr (Sidecars α) :=
  (persistScales cfg t).bind fun (scaleWrites, scales, scaleCount, scaleDtype) =>
    (persistSalient cfg t).map fun (salientWrites, salient) =>
      let (awqWrites, awq) := persistAwqColScales cfg t
      let (outlierWrites, outliers) := persistOutliers cfg t
      ⟨scaleWrites ++ awqWrites ++ outlierWrites ++ salientWrites, scales, scaleCount, scaleDtype, awq, outliers, salient⟩

/-! ## Entries -/

/-- The metadata of a stage. -/
def stageMetaOf (recorded : Encodings) (stage : StageResult α × ℕ) : StageMeta :=
  { codebook := t.codebookPath cfg stage.2, codebookSize := stage.1.codebookSize,
    codebookDtype := some stage.1.codebookDtype, indexBits := stage.1.indexBits,
    packed := some (stage.1.indexBits % 8 ≠ 0 : Bool), encoding := recorded stage.2,
    indices := t.path cfg (.indices stage.2), groupSize := some stage.1.groupSize }

/-- `_build_tensor_manifest_entry`. The path it gives for the indices is short whenever the pack has one stage. -/
def buildTensorManifestEntry (recorded : Encodings) (side : Sidecars α) : Except PyErr TensorMeta :=
  match (t.numberedStages cfg).map (stageMetaOf cfg t recorded) with
  | [] => .error .indexError
  | first :: rest => .ok
    { name := t.name, shape := t.shape, packedValues := t.packedValues, paddedValues := t.paddedValues,
      groupSize := t.groupSize, stages := first :: rest, codebook := first.codebook, codebookSize := first.codebookSize,
      indexBits := first.indexBits,
      indices := tensorPath (cfg.nStages = 1) (safeTensorName t.name) (.indices 0),
      normalization := some t.normalization, scales := side.scales, scaleCount := side.scaleCount,
      scaleDtype := side.scaleDtype,
      blockScaleSize := if storesBlockScales t.normalization then some cfg.blockScaleSize else none,
      awqColScales := side.awqColScales, outliers := side.outliers, salient := side.salient,
      rotationSeed := t.rotationSeed, rotation := some t.rotation }

/-- A tensor that is packed: what its stages and its sidecars write, and its entry. -/
structure Finalized (α : Type) where
  tensor : PackedTensor α
  sidecars : List (String × File α)
  entry : TensorMeta

/-- `_finalize_tensor_manifest_entry`, after the tasks of the tensor have run. -/
def finalizeTensorManifestEntry (compress : List ℕ → List ℕ) : Except PyErr (Finalized α) :=
  (persistTensorSidecars cfg t).bind fun side =>
    (buildTensorManifestEntry cfg t (runTasks compress (fun _ => none) (tensorTasks cfg t)).2 side).map fun entry =>
      ⟨t, side.writes, entry⟩

end Sidecars

end Orka

import Orka.Artifact

/-!
# A pack into a directory

`pack_checkpoint` as far as the directory it leaves goes. The threads of a pack of streamed tensors write each file in the order
of its tensor's tasks, so the files are those of a pack that takes one tensor after another. With shared codebooks the stages are
written one after another, each for all tensors, and then the sidecars.
-/

namespace Orka

section Files

variable {α : Type} [Field α] [LinearOrder α] [FloorRing α] (cfg : PackConfig)
  (compress : List ℕ → List ℕ) (shared : String → ℕ → File α)

/-- The writes of the stages of one tensor. -/
def stageWrites (t : PackedTensor α) : List (String × File α) := (runTasks compress (fun _ => none) (tensorTasks cfg t)).1

/-- The shared codebooks of a stage, one for each key that a tensor has. -/
def sharedWrites (ts : List (PackedTensor α)) (stage : ℕ) : List (String × File α) :=
  ((ts.map fun t => t.sharedKey cfg).dedup).map fun key => (sharedCodebookPath cfg.nStages key stage, shared key stage)

/-- The index stream of one stage of one tensor, with shared codebooks. -/
def indexWrites (stage : ℕ) (t : PackedTensor α) : List (String × File α) :=
  ((t.numberedStages cfg).filter fun s => s.2 = stage).flatMap fun s =>
    (runTasks compress (fun _ => none) (stageTasks cfg t s)).1

/-- Every write of the tensors of a pack. -/
def packWrites (fs : List (Finalized α)) : List (String × File α) :=
  match cfg.mode with
  | .perTensor => fs.flatMap fun f => stageWrites cfg compress f.tensor ++ f.sidecars
  | .global | .family =>
    ((List.range cfg.nStages).flatMap fun stage =>
      sharedWrites cfg shared (fs.map Finalized.tensor) stage ++
        fs.flatMap fun f => indexWrites cfg compress stage f.tensor) ++ fs.flatMap Finalized.sidecars

end Files

/-- The fields of a manifest that a merge compares; the others it takes from the first manifest. -/
structure ManifestHeader where
  format : String
  version : ℕ
  source : String
  groupSize : ℕ
  backend : String
  normalization : Normalization
  rotation : Rotation
  outlierFrac : ℚ
  codebookMode : CodebookMode
  nStages : ℕ
  codebookSizes : Option (List ℕ)
  familyStagesMap : Option (List (String × List ℕ))
  deriving DecidableEq

/-- `manifest.json`. -/
structure PackManifest where
  header : ManifestHeader
  partition : Option (ℕ × ℕ)
  tensors : List TensorMeta

/-- The output directory: its packed files, `passthrough.safetensors` and `manifest.json`. -/
structure Directory (α τ : Type) where
  files : List (String × File α) := []
  passthrough : Option (List (SourceTensor τ)) := none
  manifest : Option PackManifest := none

/-- The files, as the readers see them. -/
def Directory.store {α τ : Type} (dir : Directory α τ) : Store α := Journal.get dir.files

/-- The arguments of a pack, resolved, with the codebooks of the first stages fixed: learned, or taken from the codebook cache, as
`packCached` takes them from the directory it packs into. What quantization then makes of a tensor and of the shared codebooks is a
function of the tensors; with streamed tensors of the one tensor. -/
structure PackArgs (α τ : Type) where
  select : SelectArgs
  header : ManifestHeader
  blockScaleSize : ℕ
  compress : List ℕ → List ℕ
  quantize : List (SourceTensor τ) → SourceTensor τ → Except PyErr (PackedTensor α)
  shared : List (SourceTensor τ) → String → ℕ → File α
  streamed : header.codebookMode = .perTensor → ∀ cs cs' t, quantize cs t = quantize cs' t
  named : ∀ cs t p, quantize cs t = .ok p → p.name = t.name

namespace PackArgs

variable {α τ : Type} (args : PackArgs α τ)

/-- The configuration of the files. -/
def config : PackConfig := ⟨args.header.codebookMode, args.header.nStages, args.blockScaleSize⟩

variable [Field α] [LinearOrder α] [FloorRing α]

/-- One tensor, quantized and finalized. -/
def finish (cs : List (SourceTensor τ)) (t : SourceTensor τ) : Except PyErr (Finalized α) :=
  (args.quantize cs t).bind (finalizeTensorManifestEntry args.config · args.compress)

end PackArgs

section Pack

variable {α τ : Type} [Field α] [LinearOrder α] [FloorRing α]

/-- The files a pack writes. -/
def packFiles (args : PackArgs α τ) (source : List (SourceTensor τ)) (packed : Packed τ (Finalized α)) :
    List (String × File α) :=
  packWrites args.config args.compress (args.shared (select args.select source).emitted) (packed.tensors.map Prod.snd)

/-- `pack_checkpoint(source, out_dir, ...)`: the directory it leaves. The passthrough file is written if there is something in
it, the manifest always. -/
def packInto (args : PackArgs α τ) (source : List (SourceTensor τ)) (dir : Directory α τ) : Except PyErr (Directory α τ) :=
  (packCheckpoint args.header.codebookMode args.select args.finish source).map fun packed =>
    { files := dir.files ++ packFiles args source packed,
      passthrough := if packed.passthrough = [] then dir.passthrough else some packed.passthrough,
      manifest := some ⟨args.header, args.select.partition, packed.tensors.map fun e => e.2.entry⟩ }

end Pack

end Orka

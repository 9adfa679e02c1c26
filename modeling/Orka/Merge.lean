import Orka.Pack

/-!
# Merging artifacts

`merge_orka_artifacts`: the files of all inputs are copied side by side, the entries are collected by name, and the passthrough
tensors are those of all inputs that no input packs.
-/

namespace Orka

section Merge

variable {α τ : Type} [DecidableEq α]

/-- `_copy_artifact_files(source, target)`, over the files of `source`: a file that is there already has to be the same. -/
def copyArtifactFiles (source : List (String × File α)) :
    List String → List (String × File α) → Except PyErr (List (String × File α))
  | [], target => .ok target
  | path :: paths, target =>
    match Journal.get source path, Journal.get target path with
    | none, _ => copyArtifactFiles source paths target
    | some file, none => copyArtifactFiles source paths (target ++ [(path, file)])
    | some file, some old =>
      if file = old then copyArtifactFiles source paths target
      else .error (.runtimeError s!"merge conflict for {path}. Files differ across partitions.")

/-- `_copy_artifact_files` for every input. -/
def copyAll : List (Directory α τ) → List (String × File α) → Except PyErr (List (String × File α))
  | [], target => .ok target
  | dir :: dirs, target => (copyArtifactFiles dir.files (Journal.keys dir.files) target).bind (copyAll dirs)

/-- The field `_check_manifest_compatibility` finds to differ, if any: the required ones, the codebook sizes of streamed tensors,
the stages by family. -/
def incompatibleField (base candidate : ManifestHeader) : Option String :=
  if base.format ≠ candidate.format then some "format"
  else if base.version ≠ candidate.version then some "version"
  else if base.source ≠ candidate.source then some "source"
  else if base.groupSize ≠ candidate.groupSize then some "group_size"
  else if base.backend ≠ candidate.backend then some "backend"
  else if base.normalization ≠ candidate.normalization then some "normalization"
  else if base.rotation ≠ candidate.rotation then some "rotation"
  else if base.outlierFrac ≠ candidate.outlierFrac then some "outlier_frac"
  else if base.codebookMode ≠ candidate.codebookMode then some "codebook_mode"
  else if base.nStages ≠ candidate.nStages then some "n_stages"
  else if base.codebookMode = .perTensor ∧ candidate.codebookSizes ≠ base.codebookSizes then some "codebook_sizes"
  else if base.familyStagesMap ≠ candidate.familyStagesMap then some "family_stages_map"
  else none

/-- `_check_manifest_compatibility(base, candidate, candidate_dir)`; its message goes on with the two values of some fields. -/
def checkManifestCompatibility (base candidate : ManifestHeader) (candidateDir : String) : Except PyErr Unit :=
  match incompatibleField base candidate with
  | none => .ok ()
  | some field => .error (.valueError s!"{field} mismatch while merging {candidateDir}")

/-- The same for every manifest after the first, each with its directory. -/
def checkManifests (base : PackManifest) (others : List (String × PackManifest)) : Except PyErr (List Unit) :=
  others.mapM fun other => checkManifestCompatibility base.header other.2.header other.1

/-- `merged_tensors`, in the order of the manifests. -/
def mergeTensors : List TensorMeta → List TensorMeta → Except PyErr (List TensorMeta)
  | [], merged => .ok merged
  | tm :: tms, merged =>
    if tm.name ∈ merged.map TensorMeta.name then .error (.valueError s!"duplicate tensor in merge: {tm.name}")
    else mergeTensors tms (merged ++ [tm])

/-- `passthrough_tensors`, in the order of the inputs. -/
def mergePassthrough (mergedNames : List String) : List (SourceTensor τ) → List (SourceTensor τ) → List (SourceTensor τ)
  | [], kept => kept
  | t :: ts, kept =>
    if t.name ∈ mergedNames ∨ t.name ∈ kept.map SourceTensor.name then mergePassthrough mergedNames ts kept
    else mergePassthrough mergedNames ts (kept ++ [t])

/-- Nothing is in the output directory. -/
def Directory.isEmpty (dir : Directory α τ) : Bool := dir.files.isEmpty && dir.passthrough.isNone && dir.manifest.isNone

/-- `path / "manifest.json"` of an input. -/
def inputManifest (input : String × Directory α τ) : Except PyErr PackManifest :=
  match input.2.manifest with
  | none => .error (.fileNotFoundError s!"{input.1}/manifest.json")
  | some manifest => .ok manifest

/-- `merge_orka_artifacts(input_artifacts, out_dir)`: the output directory it leaves. -/
def mergeOrkaArtifacts (inputs : List (String × Directory α τ)) (outDir : String) (out : Directory α τ) :
    Except PyErr (Directory α τ) :=
  if inputs.length < 2 then .error (.valueError "need at least two input artifacts to merge")
  else if outDir ∈ inputs.map Prod.fst then
    .error (.valueError "output directory cannot be one of the input artifacts")
  else if ¬ out.isEmpty then .error (.runtimeError s!"output directory already exists with content: {outDir}")
  else (inputs.mapM inputManifest).bind fun manifests =>
    match manifests with
    | [] => .error .indexError
    | base :: rest =>
      (checkManifests base (((inputs.map Prod.fst).drop 1).zip rest)).bind fun _ =>
        (copyAll (inputs.map Prod.snd) out.files).bind fun files =>
          (mergeTensors ((base :: rest).flatMap PackManifest.tensors) []).map fun merged =>
            let kept := mergePassthrough (merged.map TensorMeta.name)
              (inputs.flatMap fun input => input.2.passthrough.getD []) []
            { files := files, passthrough := if kept = [] then none else some kept,
              manifest := some ⟨base.header, none, merged.insertionSort fun a b => a.name ≤ b.name⟩ }

end Merge

end Orka

import Orka.Pack

/-!
# Reconstructing a checkpoint

`_write_complete_safetensors_reconstruction_binary`: the tensors of an artifact, those that pass through and those only the
source has, each as its shape and its values, in the order of their names.
-/

namespace Orka

/-- Where a tensor of a reconstruction comes from. -/
inductive Origin (τ : Type) where
  | passthrough (t : SourceTensor τ)
  | sourceFallback (t : SourceTensor τ)
  | quantized (tm : TensorMeta)

section Registry

variable {τ : Type}

/-- Tensors under their names. -/
def byName (origin : SourceTensor τ → Origin τ) (ts : List (SourceTensor τ)) : List (String × Origin τ) :=
  ts.map fun t => (t.name, origin t)

/-- The source fallback: what is neither packed nor registered yet. -/
def addFallback (packedNames : List String) : List (SourceTensor τ) → List (String × Origin τ) → List (String × Origin τ)
  | [], registry => registry
  | t :: ts, registry =>
    if t.name ∈ packedNames ∨ t.name ∈ registry.map Prod.fst then addFallback packedNames ts registry
    else addFallback packedNames ts (registry ++ [(t.name, .sourceFallback t)])

/-- `registry`, as the assignments made to it. -/
def registryOf (sources : String → Option (List (SourceTensor τ))) (passthrough : Option (List (SourceTensor τ)))
    (manifest : PackManifest) : List (String × Origin τ) :=
  let packedNames := manifest.tensors.map TensorMeta.name
  addFallback packedNames ((sources manifest.header.source).getD []) (byName .passthrough (passthrough.getD [])) ++
    manifest.tensors.map fun tm => (tm.name, .quantized tm)

/-- `sorted(registry.keys())`. -/
def sortedNames (registry : List (String × Origin τ)) : List String := (Journal.keys registry).insertionSort (· ≤ ·)

/-- The sorted names are the names registered. -/
theorem mem_sortedNames {registry : List (String × Origin τ)} {name : String} :
    name ∈ sortedNames registry ↔ Journal.get registry name ≠ none := by
  rw [sortedNames, List.mem_insertionSort, Journal.mem_keys]

end Registry

section Reconstruct

variable {α τ : Type} [Field α] [LinearOrder α] [FloorRing α] (num : Numerics α) (flat : τ → List α)

/-- The shape and the values written for a tensor. -/
def originValues (store : Store α) : Origin τ → Except PyErr (List ℕ × List α)
  | .passthrough t | .sourceFallback t => .ok (t.shape, flat t.value)
  | .quantized tm => (decodeTensor num store tm).map fun values => (tm.shape, values)

/-- The tensors of the file `_write_complete_safetensors_reconstruction_binary` writes. `sources` says which checkpoints still
exist. -/
def writeCompleteSafetensors (sources : String → Option (List (SourceTensor τ))) (dir : Directory α τ)
    (manifest : PackManifest) : Except PyErr (List (String × List ℕ × List α)) :=
  let registry := registryOf sources dir.passthrough manifest
  (sortedNames registry).mapM fun name => match Journal.get registry name with
    | none => .error .indexError
    | some origin => (originValues num flat dir.store origin).map fun values => (name, values)

/-- `_decoded_tensor_map(out_dir, manifest)`. -/
def decodedTensorMap (dir : Directory α τ) (manifest : PackManifest) : Except PyErr (List (String × List ℕ × List α)) :=
  manifest.tensors.mapM fun tm => (decodeTensor num dir.store tm).map fun values => (tm.name, tm.shape, values)

/-- The formats of a reconstruction. -/
inductive OutputFormat where
  | json
  | safetensors
  deriving DecidableEq, Repr

/-- The tensors that were packed in part. -/
def truncatedTensors (manifest : PackManifest) : List TensorMeta :=
  manifest.tensors.filter fun tm => tm.packedValues ≠ tm.shape.prod

/-- `reconstruct_artifact(out_dir, output_path, output_format)`: the tensors written. -/
def reconstructArtifact (sources : String → Option (List (SourceTensor τ))) (outputFormat : OutputFormat)
    (dir : Directory α τ) : Except PyErr (List (String × List ℕ × List α)) :=
  match dir.manifest with
  | none => .error (.fileNotFoundError "manifest.json")
  | some manifest => match outputFormat with
    | .json => decodedTensorMap num dir manifest
    | .safetensors => match truncatedTensors manifest with
      | [] => writeCompleteSafetensors num flat sources dir manifest
      | first :: rest => .error (.valueError (s!"cannot reconstruct to safetensors: {rest.length + 1} tensor(s) were packed " ++
          s!"with --max-values-per-tensor (packed_values < shape), e.g. {first.name}. " ++
          "Re-pack without the sample limit, or use --format json."))

end Reconstruct

end Orka

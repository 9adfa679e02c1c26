import Orka.Merge

/-!
# Merging directories

`merge_orka_artifacts` with the output directory it leaves, whether it returns or raises. The inputs are as the merge finds them:
any of them may lack a manifest or have one that cannot be read, and so may their entries and passthrough files.
-/

namespace Orka

/-- An entry of `manifest["tensors"]` with what the merge reads of it: `tensor_meta["name"]` and
`int(tensor_meta.get("index_bytes", 0))`. -/
structure PartitionEntry (ε : Type) where
  name : Except PyErr String
  indexBytes : Except PyErr ℤ
  tensor : ε

/-- `manifest.json` of an input. -/
structure PartitionManifest (ε : Type) where
  header : ManifestHeader
  tensors : List (PartitionEntry ε)

/-- An input: its resolved path, its files in the order of `rglob`, its manifest and its passthrough file. -/
structure Partition (β ε τ : Type) where
  path : String
  files : List (String × β)
  manifest : Option (Except PyErr (PartitionManifest ε))
  passthrough : Option (Except PyErr (List (SourceTensor τ)))

/-- The merged `manifest.json`: the fields of the first input with those that are set anew. -/
structure MergedManifest (ε : Type) where
  header : ManifestHeader
  tensors : List (String × PartitionEntry ε)
  passthroughCount : ℕ
  totalIndexBytes : ℤ

/-- The output directory. -/
structure MergeTarget (β ε τ : Type) where
  files : List (String × β) := []
  passthrough : Option (List (SourceTensor τ)) := none
  manifest : Option (MergedManifest ε) := none

section MergeDirs

variable {β ε τ : Type} [DecidableEq β]

/-- The files that `_copy_artifact_files` leaves out. -/
def mergedApart : List String := ["manifest.json", "passthrough.safetensors"]

/-- `p` is a directory on the way to `q`. -/
def Under (p q : String) : Prop := p.toList ++ ['/'] <+: q.toList

instance (p q : String) : Decidable (Under p q) := inferInstanceAs (Decidable (_ <+: _))

/-- `_copy_artifact_files(source, target)`. `pathErr` is what is raised where a file would stand at the place of a directory. -/
def copyFiles (pathErr : String → PyErr) : List (String × β) → List (String × β) → Option PyErr × List (String × β)
  | [], target => (none, target)
  | (path, bytes) :: files, target =>
    if path ∈ mergedApart then copyFiles pathErr files target
    else match Journal.get target path with
      | some old =>
        if bytes = old then copyFiles pathErr files target
        else (some (.runtimeError s!"merge conflict for {path}. Files differ across partitions."), target)
      | none =>
        if ∃ f ∈ target, Under path f.1 ∨ Under f.1 path then (some (pathErr path), target)
        else copyFiles pathErr files (target ++ [(path, bytes)])

/-- `_copy_artifact_files` for every input. -/
def copyInputs (pathErr : String → PyErr) : List (Partition β ε τ) → List (String × β) → Option PyErr × List (String × β)
  | [], target => (none, target)
  | input :: inputs, target =>
    match copyFiles pathErr input.files target with
    | (some e, target) => (some e, target)
    | (none, target) => copyInputs pathErr inputs target

/-- `manifest_path` of an input, read. -/
def Partition.readManifest (input : Partition β ε τ) : Except PyErr (PartitionManifest ε) :=
  match input.manifest with
  | none => .error (.fileNotFoundError s!"missing manifest: {input.path}/manifest.json")
  | some manifest => manifest

/-- `_check_manifest_compatibility` of every manifest but the first. -/
def checkOthers (base : PartitionManifest ε) : List (String × PartitionManifest ε) → Except PyErr Unit
  | [] => .ok ()
  | (path, manifest) :: others =>
    (checkManifestCompatibility base.header manifest.header path).bind fun _ => checkOthers base others

/-- `merged_tensors`, in the order of the manifests. -/
def collectEntries : List (PartitionEntry ε) → List (String × PartitionEntry ε) → Except PyErr (List (String × PartitionEntry ε))
  | [], merged => .ok merged
  | entry :: entries, merged =>
    entry.name.bind fun name =>
      if name ∈ merged.map Prod.fst then .error (.valueError s!"duplicate tensor in merge: {name}")
      else collectEntries entries (merged ++ [(name, entry)])

/-- `passthrough_tensors`, in the order of the inputs. -/
def collectPassthrough (packed : List String) : List (Partition β ε τ) → List (SourceTensor τ) → Except PyErr (List (SourceTensor τ))
  | [], kept => .ok kept
  | input :: inputs, kept =>
    match input.passthrough with
    | none => collectPassthrough packed inputs kept
    | some loaded => loaded.bind fun tensors => collectPassthrough packed inputs (mergePassthrough packed tensors kept)

/-- `total_index_bytes`. -/
def sumIndexBytes : List (String × PartitionEntry ε) → Except PyErr ℤ
  | [] => .ok 0
  | (_, entry) :: entries => entry.indexBytes.bind fun n => (sumIndexBytes entries).map (n + ·)

/-- Nothing is in the directory, or there is none. -/
def isVacant : Option (MergeTarget β ε τ) → Bool
  | none => true
  | some out => out.files.isEmpty && out.passthrough.isNone && out.manifest.isNone

/-- The checks of `merge_orka_artifacts` before the output directory is made. -/
def mergeChecks (inputs : List (Partition β ε τ)) (outDir : String) (out : Option (MergeTarget β ε τ)) :
    Except PyErr (List (PartitionManifest ε)) :=
  if inputs.length < 2 then .error (.valueError "need at least two input artifacts to merge")
  else if outDir ∈ inputs.map Partition.path then .error (.valueError "output directory cannot be one of the input artifacts")
  else if ¬ isVacant out then .error (.runtimeError s!"output directory already exists with content: {outDir}")
  else (inputs.mapM Partition.readManifest).bind fun manifests =>
    match manifests with
    | [] => .error .indexError
    | base :: rest => (checkOthers base (((inputs.map Partition.path).drop 1).zip rest)).map fun _ => manifests

/-- What is written behind the copied files: the passthrough file and the manifest. -/
def writeMerged (base : PartitionManifest ε) (entries : List (String × PartitionEntry ε)) (kept : List (SourceTensor τ))
    (files : List (String × β)) : Except PyErr (MergedManifest ε) × Option (MergeTarget β ε τ) :=
  let sorted := entries.mergeSort fun a b => a.1 ≤ b.1
  let passthrough := if kept.isEmpty then none else some kept
  match sumIndexBytes sorted with
  | .error e => (.error e, some { files := files, passthrough := passthrough })
  | .ok total =>
    let manifest : MergedManifest ε := ⟨base.header, sorted, kept.length, total⟩
    (.ok manifest, some { files := files, passthrough := passthrough, manifest := some manifest })

/-- `merge_orka_artifacts(input_artifacts, out_dir)`: what it returns or raises, and the output directory after it. -/
def mergeOrkaArtifactsInto (pathErr : String → PyErr) (inputs : List (Partition β ε τ)) (outDir : String)
    (out : Option (MergeTarget β ε τ)) : Except PyErr (MergedManifest ε) × Option (MergeTarget β ε τ) :=
  match mergeChecks inputs outDir out with
  | .error e => (.error e, out)
  | .ok [] => (.error .indexError, out)
  | .ok (base :: rest) =>
    match copyInputs pathErr inputs [] with
    | (some e, files) => (.error e, some { files := files })
    | (none, files) =>
      match collectEntries ((base :: rest).flatMap PartitionManifest.tensors) [] with
      | .error e => (.error e, some { files := files })
      | .ok entries =>
        match collectPassthrough (entries.map Prod.fst) inputs [] with
        | .error e => (.error e, some { files := files })
        | .ok kept => writeMerged base entries kept files

end MergeDirs

end Orka

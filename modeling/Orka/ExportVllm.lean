import Orka.Decode
import Orka.Derive
import Orka.Prefetch
import Orka.Lib.Journal

/-!
# Exporting dense weights

`export_vllm`: every packed tensor decoded, with its low-rank correction merged or left to an adapter, and the tensors that pass
through or that only the source has. The adapter of `_write_peft_adapter` has the factors of all corrections at one rank.
-/

namespace Orka

open Flat

/-- A tensor as `save_file` is given it. -/
structure Dense (α : Type) where
  shape : List ℕ
  values : List α
  deriving DecidableEq

/-- The factors `_read_lowrank` gives, each row as wide as the rank. -/
structure Correction (α : Type) where
  rank : ℕ
  a : List (List α)
  b : List (List α)

/-- `_module_path(tensor_name)`. -/
def modulePath (name : String) : String :=
  if endsWith name.toList ".weight" then String.ofList (name.toList.take (name.toList.length - 7)) else name

/-- `_leaf_name(tensor_name)`. -/
def leafName (name : String) : String := String.ofList ((modulePath name).toList.reverse.takeWhile (· ≠ '.')).reverse

/-- The key of `lora_A` of a module. -/
def loraAKey (module : String) : String := "base_model.model." ++ module ++ ".lora_A.weight"

/-- The key of `lora_B` of a module. -/
def loraBKey (module : String) : String := "base_model.model." ++ module ++ ".lora_B.weight"

/-- `adapter_model.safetensors`, as the assignments made to it, and the fields of `adapter_config.json`. -/
structure PeftAdapter (α : Type) where
  tensors : List (String × Dense α)
  r : ℕ
  loraAlpha : ℕ
  targetModules : List String
  deriving DecidableEq

/-- What an export writes: `model.safetensors`, as the assignments made to `weights`, and the adapter. -/
structure VllmExport (α : Type) where
  weights : List (String × Dense α)
  adapter : Option (PeftAdapter α)
  deriving DecidableEq

section ExportVllm

variable {α : Type} [Field α] [LinearOrder α] [IsStrictOrderedRing α] [FloorRing α]

/-- `torch.nn.functional.pad(t, (0, width - rank))` of `rows` rows. -/
def padColumns (rows rank width : ℕ) (flat : List α) : List α :=
  tabulate (rows * width) fun i => if i % width < rank then cell flat (i / width * rank + i % width) else 0

/-- `t.T.contiguous()` of `rows` rows. -/
def transposed (rows width : ℕ) (flat : List α) : List α := tabulate (width * rows) fun i => cell flat (i % rows * width + i / rows)

/-- `_write_peft_adapter(adapter_dir, corrections)`; `half` is the cast to float16. -/
def writePeftAdapter (half : α → α) (corrections : List (String × Correction α)) : PeftAdapter α :=
  let maxRank := (corrections.map fun c => c.2.rank).foldr max 0
  { tensors := corrections.flatMap fun (name, c) =>
      let a := padColumns c.a.length c.rank maxRank c.a.flatten
      let b := padColumns c.b.length c.rank maxRank c.b.flatten
      [(loraAKey (modulePath name), ⟨[maxRank, c.b.length], (transposed c.b.length maxRank b).map half⟩),
        (loraBKey (modulePath name), ⟨[c.a.length, maxRank], a.map half⟩)]
    r := maxRank
    loraAlpha := maxRank
    targetModules := (corrections.map fun c => leafName c.1).dedup.insertionSort (· ≤ ·) }

variable (num : Numerics α) (cast : α → α)

/-- The values of a packed tensor: when there is an adapter, without its correction, which is read instead. -/
def decodeForExport (store : Store α) (correctionAdapter : Bool) (tm : TensorMeta) : Except PyErr (List α × Option (Correction α)) :=
  match correctionAdapter, tm.lowrank with
  | true, some lr => (readLowrank num store lr).bind fun (a, b) =>
      (decodeTensor num store { tm with lowrank := none }).map fun decoded => (decoded, some ⟨lr.rank, a, b⟩)
  | _, _ => (decodeTensor num store tm).map fun decoded => (decoded, none)

/-- A turn of the loop over the packed tensors. -/
def exportWeight (store : Store α) (correctionAdapter : Bool) (tm : TensorMeta) : Except PyErr (Dense α × Option (Correction α)) :=
  (decodeForExport num store correctionAdapter tm).bind fun (decoded, correction) =>
    if decoded.length = tm.shape.prod then .ok (⟨tm.shape, decoded.map cast⟩, correction)
    else .error (.runtimeError "shape is invalid for input")

/-- The loops over the passthrough file and the source: what has no weight yet is taken. -/
def addMissing : List (SourceTensor (List α)) → List (String × Dense α) → List (String × Dense α)
  | [], weights => weights
  | t :: ts, weights =>
    if t.name ∈ weights.map Prod.fst then addMissing ts weights
    else addMissing ts (weights ++ [(t.name, ⟨t.shape, t.value.map cast⟩)])

/-- `export_vllm(artifact_dir, out_dir, dtype, correction_adapter)` of the packed tensors of the manifest, the passthrough file and the
source, those that exist; `cast` is the cast to the target dtype, `half` that to float16. -/
def exportVllm (half : α → α) (store : Store α) (tensors : List TensorMeta) (passthrough source : Option (List (SourceTensor (List α))))
    (correctionAdapter : Bool) : Except PyErr (VllmExport α) :=
  let packedMeta := Journal.items (tensors.map fun tm => (tm.name, tm))
  (packedMeta.mapM fun w => (exportWeight num cast store correctionAdapter w.2).map fun e => (w.1, e)).map fun exported =>
    let weights := exported.map fun e => (e.1, e.2.1)
    let corrections := exported.filterMap fun e => e.2.2.map fun c => (e.1, c)
    { weights := addMissing cast (source.getD []) (addMissing cast (passthrough.getD []) weights)
      adapter := if correctionAdapter && !corrections.isEmpty then some (writePeftAdapter half corrections) else none }

end ExportVllm

/-! ## What an adapter adds -/

section Delta

variable {α : Type} [Field α]

/-- `lora_B @ lora_A * (lora_alpha / r)` of the tensor's module, when the adapter has an entry of it. -/
def PeftAdapter.delta (adapter : PeftAdapter α) (name : String) : Option (Dense α) :=
  match Journal.get adapter.tensors (loraBKey (modulePath name)), Journal.get adapter.tensors (loraAKey (modulePath name)) with
  | some ⟨[out, r], b⟩, some ⟨[_, cols], a⟩ =>
    some ⟨[out, cols], tabulate (out * cols) fun i =>
      ((List.range r).map fun k => cell b (i / cols * r + k) * cell a (k * cols + i % cols)).sum * (adapter.loraAlpha / adapter.r)⟩
  | _, _ => none

end Delta

end Orka

import Orka.Build
import Orka.Derive
import Orka.Lib.Picked

/-!
# Serving an embedding by rows

`VQEmbedding`: the packed payload of a table stays as it is, and a lookup decodes the distinct rows it asks for. The loader puts
one in place of the input embedding of a live model. Buffers of floats are binary16; arithmetic is exact.
-/

namespace Orka

open Flat

/-- `can_serve(tensor_meta)`: whether rows can be decoded by themselves, and why not. -/
def canServe (tm : TensorMeta) : Except PyErr (Bool × String) :=
  match tm.shape with
  | [_, dim] =>
    let group := tm.groupSize
    let block := tm.blockSize
    let sidecars := [("outliers", tm.outliers.isSome), ("salient", tm.salient.isSome), ("lowrank", tm.lowrank.isSome),
      ("pillars", tm.pillars.isSome)]
    if group = 0 then .error .zeroDivisionError
    else if dim % group ≠ 0 then .ok (false, s!"in_features {dim} not divisible by group_size {group}")
    else if dim % block ≠ 0 then .ok (false, s!"in_features {dim} not divisible by block_size {block}")
    else match sidecars.find? Prod.snd with
      | some (side, _) => .ok (false, s!"{side} sidecar needs a per-row correction scatter")
      | none =>
        if tm.stages.any fun stage => stage.groupSize.getD group ≠ group then .ok (false, "scalar/mixed-group stage layout")
        else .ok (true, "")
  | shape => .ok (false, s!"expected a 2-D table, got shape {shape}")

/-- `codebook_{s}` and `indices_{s}`. -/
structure EmbeddingStage (α : Type) where
  codebook : List (List α)
  indices : List ℤ

/-- The buffers of a `VQEmbedding`. -/
structure VQEmbedding (α : Type) where
  numEmbeddings : ℕ
  embeddingDim : ℕ
  groupSize : ℕ
  blockSize : ℕ
  stages : List (EmbeddingStage α)
  scales : Option (List α)

section Construction

variable {α : Type} [Field α] [LinearOrder α] [IsStrictOrderedRing α] [FloorRing α]
variable (num : Numerics α) (store : Store α) (tm : TensorMeta)

/-- One stage of `from_artifact`. -/
def embeddingStage (total : ℕ) (stage : StageMeta) : Except PyErr (EmbeddingStage α) :=
  (readIndices num store stage.indices stage.indexBits (ceilDiv total tm.groupSize) (stage.packed.getD false)
    (stage.encoding.getD .raw)).bind fun raw =>
    (readCodebook num store stage.codebook tm.groupSize (stage.codebookDtype.getD .float16)).map fun cb =>
      { codebook := cb.map (·.map Binary16.round16), indices := raw.map (storeIndex stage.codebookSize) }

/-- The scales of `from_artifact`. -/
def embeddingScales (total : ℕ) : Except PyErr (Option (List α)) :=
  if storesBlockScales tm.normalizationMode then
    (readScales num store tm).map fun arr => some ((arr.take (ceilDiv total tm.blockSize)).map Binary16.round16)
  else .ok none

/-- `VQEmbedding.from_artifact(artifact_dir, tensor_meta)`. -/
def VQEmbedding.fromArtifact : Except PyErr (VQEmbedding α) :=
  (canServe tm).bind fun served =>
    let name := tm.name
    let why := served.2
    if served.1 = false then .error (.valueError s!"cannot serve {name} row-lazily: {why}")
    else (rowsCols tm.shape).bind fun (vocab, dim) =>
      ((resolveStages tm).mapM (embeddingStage num store tm (vocab * dim))).bind fun stages =>
        (embeddingScales num store tm (vocab * dim)).map fun scales =>
          { numEmbeddings := vocab, embeddingDim := dim, groupSize := tm.groupSize, blockSize := tm.blockSize,
            stages := stages, scales := scales }

end Construction

/-- `torch.unique(ids, return_inverse=True)`. -/
def unique (ids : List ℤ) : List ℤ × List ℕ :=
  let flat := ids.dedup.mergeSort fun a b => decide (a ≤ b)
  (flat, ids.map flat.idxOf)

/-- `flat[:, None] * per_row + torch.arange(per_row)[None, :]`, row by row. -/
def rowSelect (perRow : ℕ) (flat : List ℤ) : List ℤ :=
  flat.flatMap fun r => (List.range perRow).map fun a : ℕ => r * perRow + a

namespace VQEmbedding

variable {α : Type} [Ring α] (emb : VQEmbedding α)

/-- What one stage adds to the rows of `flat`. -/
def stagePart (flat : List ℤ) (s : EmbeddingStage α) : Except PyErr (List α) :=
  (takeValues s.indices (rowSelect (emb.embeddingDim / emb.groupSize) flat)).bind fun idx =>
    (takeRows s.codebook idx).map List.flatten

/-- The sum of the stages; without a stage `out` is `None`, which has no `reshape`. -/
def stageSum (flat : List ℤ) : Except PyErr (List α) :=
  match emb.stages with
  | [] => .error .typeError
  | s :: rest => (emb.stagePart flat s).bind fun out =>
    rest.foldlM (fun out s => (emb.stagePart flat s).map fun part => List.zipWith (· + ·) out part) out

/-- The rows of `flat`, decoded. -/
def decodeRows (flat : List ℤ) : Except PyErr (List α) :=
  (emb.stageSum flat).bind fun out =>
    match emb.scales with
    | none => .ok out
    | some scales => (takeValues scales (rowSelect (emb.embeddingDim / emb.blockSize) flat)).map fun sc =>
      scaleRows emb.blockSize out sc

/-- `forward(ids)`: the row of each position, `cast` being `.to(out_dtype)`. -/
def forward (cast : α → α) (ids : List ℤ) : Except PyErr (List (List α)) :=
  let flat := (unique ids).1
  let inverse := (unique ids).2
  (emb.decodeRows flat).map fun out => inverse.map fun i => ((rowsOf flat.length emb.embeddingDim out).getD i []).map cast

end VQEmbedding

/-! ## The loader -/

/-- A parameter as `_shares_storage` compares it: the object, its shape and the storage under it. -/
structure TorchParameter where
  object : ℕ
  shape : List ℕ
  storage : ℕ
  deriving DecidableEq

/-- What the loader asks of a live model: `named_modules()`, what `get_input_embeddings()` returns or the name of the exception
it raises, the weight of what `get_output_embeddings()` returns, and the weight of the input embedding. -/
structure LookupHost where
  modules : List (String × ℕ)
  inputEmbeddings : Option (Except String (Option ℕ))
  outputWeight : Option TorchParameter
  inputWeight : TorchParameter

/-- `_shares_storage(a, b)`. -/
def sharesStorage (a b : TorchParameter) : Bool := a.object = b.object || (a.shape = b.shape && a.storage = b.storage)

/-- Whether the logit projection has the weight of the input embedding. -/
def LookupHost.tied (host : LookupHost) : Bool := host.outputWeight.any fun w => sharesStorage w host.inputWeight

/-- `is_pure_lookup(model)`. -/
def isPureLookup (host : LookupHost) : Bool × String :=
  match host.inputEmbeddings with
  | none => (false, "model exposes no get_input_embeddings()")
  | some (.error exc) => (false, s!"get_input_embeddings() failed: {exc}")
  | some (.ok none) => (false, "model has no input embedding")
  | some (.ok (some _)) =>
    if host.tied then
      (false, "tied to the output projection - the table is also a compute weight here; pass the base encoder instead")
    else (true, "")

/-- `_qualified_name(model, target)`. -/
def qualifiedName (host : LookupHost) (target : Option ℕ) : Option String :=
  (host.modules.find? fun named => target = some named.2).map Prod.fst

/-- The entry of a weight: the first with its name, else the only one whose name ends in it; or why there is none. -/
def findEntry (weightName : String) (tensors : List TensorMeta) : Except String TensorMeta :=
  match tensors.find? fun t => t.name = weightName with
  | some tm => .ok tm
  | none =>
    match tensors.filter fun t => endsWith t.name.toList ("." ++ weightName) with
    | [tm] => .ok tm
    | [] => .error s!"{weightName} is not quantized in this artifact"
    | suffix =>
      let found := suffix.length
      let names := ", ".intercalate ((suffix.take 3).map fun t => t.name)
      .error s!"{weightName} matches {found} artifact tensors ({names}); ambiguous"

/-- What `install_vq_embeddings` reports, without the byte counts. -/
structure InstallReport where
  installed : Bool
  reason : String
  tensor : Option String
  forcedTied : Option String
  deriving DecidableEq

section Install

variable {α : Type} [Field α] [LinearOrder α] [IsStrictOrderedRing α] [FloorRing α]
variable (num : Numerics α) (store : Store α)

/-- The second call of `get_input_embeddings()`, which nothing guards. -/
def LookupHost.input (host : LookupHost) : Except PyErr (Option ℕ) :=
  match host.inputEmbeddings with
  | none => .error .typeError
  | some (.error exc) => .error (.runtimeError exc)
  | some (.ok emb) => .ok emb

/-- `install_vq_embeddings(model, artifact_dir)`: the report, and the module that is set with the path it is set at. -/
def installVqEmbeddings (host : LookupHost) (tensors : List TensorMeta) (allowTied : Bool) :
    Except PyErr (InstallReport × Option (String × VQEmbedding α)) :=
  let eligible := (isPureLookup host).1
  let why := (isPureLookup host).2
  if eligible = false ∧ allowTied = false then .ok (⟨false, why, none, none⟩, none)
  else
    let forcedTied := if eligible then none else some why
    host.input.bind fun emb =>
      match qualifiedName host emb with
      | none => .ok (⟨false, "input embedding module is not reachable from this model", none, forcedTied⟩, none)
      | some dotted =>
        match findEntry (dotted ++ ".weight") tensors with
        | .error reason => .ok (⟨false, reason, none, forcedTied⟩, none)
        | .ok tm => (canServe tm).bind fun served =>
          if served.1 = false then .ok (⟨false, served.2, some (dotted ++ ".weight"), forcedTied⟩, none)
          else (VQEmbedding.fromArtifact num store tm).map fun vq =>
            (⟨true, "", some tm.name, forcedTied⟩, some (dotted, vq))

end Install

end Orka

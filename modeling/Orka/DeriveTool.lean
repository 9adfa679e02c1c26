import Orka.Derive

/-!
# Inspecting and deriving

`inspect_tool` and `derive_tool` of `autoquant/tools.py` on a checkpoint of vectors and matrices. Inspecting classifies with the
profile of the shapes, deriving without it.
-/

namespace Orka

open Dynamic

/-! ## Roles with a profile -/

/-- What `classify_role` reads of an `ArchProfile`. -/
structure ArchProfile where
  vocabSize : Option ℕ
  headNames : List String
  deriving DecidableEq, Repr

/-- `_base(name)`. -/
def ArchProfile.base (name : String) : String :=
  if endsWith name.toList ".weight" then String.ofList (name.toList.take (name.toList.length - 7)) else name

/-- `ArchProfile.from_shapes(tensor_shapes)`. -/
def ArchProfile.fromShapes (shapes : List (String × List ℕ)) : ArchProfile :=
  let twod := shapes.filter fun s => s.2.length = 2
  let widest := (twod.map fun s => s.2.headI).foldr max 0
  { vocabSize := if widest = 0 then none else some widest
    headNames := (twod.filter fun s => s.2.headI = widest).map fun s => ArchProfile.base s.1 }

/-- `profile.is_output_head(name, shape)`. -/
def ArchProfile.isOutputHead (profile : ArchProfile) (name : String) (shape : List ℕ) : Bool :=
  ArchProfile.base name ∈ profile.headNames || (shape.length = 2 && profile.vocabSize.any fun vocab => shape.headI = vocab) ||
    mentionsAny (lowered name) ["lm_head", "embed_out", "output.weight"]

section Tools

variable {α : Type} [Field α] [LinearOrder α]

/-- `classify_role(name, shape, tied, profile)`. -/
def classifyRoleWith (name : String) (shape : List ℕ) (tied : Bool) (profile : ArchProfile) : String × α :=
  let n := lowered name
  if endsWith n ".bias" || endsWith n "_bias" then ("bias", 1)
  else if mentionsAny n ["norm", "ln_"] || endsWith n ".ln.weight" then ("norm", 1)
  else
    let fam := classifyTensorFamily name
    match if fam = "other" ∨ fam = "attention" then convRole n shape else none with
    | some conv => conv
    | none =>
      if fam = "embedding" then
        if mentionsAny n ["lm_head", "embed_out", "output.weight"] then ("out-head", 1)
        else if mentionsAny n ["embed_in", "wte", "embed_tokens", "word_embeddings", "embedding"] then ("in-embed", 1)
        else if profile.isOutputHead name shape then if tied then ("in-embed", 8 / 10) else ("out-head", 9 / 10)
        else ("unknown", 3 / 10)
      else if fam = "attention" then attentionRole n
      else if fam = "mlp" then mlpRole n
      else if profile.isOutputHead name shape then ("out-head", 85 / 100)
      else ("unknown", 3 / 10)

variable [FloorRing α]

/-- A checkpoint of vectors and matrices. -/
structure CheckpointWeights (α : Type) where
  weights : List (Weight α)
  names : (weights.map Weight.name).Nodup
  dims : ∀ w ∈ weights, w.shape.length = 1 ∨ w.shape.length = 2

/-- The roles `inspect_tool` finds; a tensor without elements is passed over. -/
def inspectRoles (ckpt : CheckpointWeights α) : List (String × String) :=
  let tensors := ckpt.weights.filter fun w => 0 < w.shape.prod
  let profile := ArchProfile.fromShapes (tensors.map fun w => (w.name, w.shape))
  let tied := (tensors.countP fun w => w.shape.length = 2 && profile.vocabSize.any fun vocab => w.shape.headI = vocab) = 1
  tensors.map fun w => (w.name, (classifyRoleWith w.name w.shape tied profile : String × α).1)

/-- `derive_tool`: the decisions and the roles, where `roles` is what the state holds. -/
def deriveConfigs (args : DeriveArgs α) (roles : List (String × String)) (ckpt : CheckpointWeights α) :
    Except Exc (List (String × TensorConfig α) × List (String × String)) :=
  (deriveConfig { args with useLlm := false } (fun _ => none) ckpt.weights).bind fun (out, _) =>
    let cfgs := out.map fun p => (p.1.name, p.2.railed)
    let roles := if roles.isEmpty then ckpt.weights.map fun w => (w.name, (classifyRole w.name w.shape : String × α).1) else roles
    (validateConfigs cfgs roles).map fun _ => (cfgs, roles)

end Tools

end Orka
